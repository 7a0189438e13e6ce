/-!
# Blank space in a text

Blank means the whole White_Space property of Unicode, twenty-five characters, and not only the six
of ASCII: names are cut, statements trimmed and bodies dedented by the same test everywhere.

Texts are lists of characters. Trimming is `dropWhile` from either end, so what remains is a
contiguous part of the text and its first and last characters are not blank
(`trimStart_eq_nil_iff`, `head?_trimStart`).
-/

namespace ShellCatalog

/-- The characters with the White_Space property. -/
def isSpace (c : Char) : Bool :=
  let n := c.toNat
  (9 ≤ n && n ≤ 13) || n == 32 || n == 0x85 || n == 0xA0 || n == 0x1680 ||
    (0x2000 ≤ n && n ≤ 0x200A) || n == 0x2028 || n == 0x2029 || n == 0x202F || n == 0x205F ||
    n == 0x3000

/-- The blanks that indent a line: space and tab only. -/
def isIndent (c : Char) : Bool :=
  c == ' ' || c == '\t'

/-- A text without a visible character; the empty text is one. -/
def isBlank (text : List Char) : Bool :=
  text.all isSpace

/-- The text from its first visible character on. -/
def trimStart (text : List Char) : List Char :=
  text.dropWhile isSpace

/-- The text up to its last visible character. -/
def trimEnd : List Char → List Char
  | [] => []
  | c :: rest =>
    match trimEnd rest with
    | [] => if isSpace c then [] else [c]
    | kept => c :: kept

/-- The text without the blanks at either end. -/
def trim (text : List Char) : List Char :=
  trimEnd (trimStart text)

/-- The maximal runs of visible characters, in order. -/
def spaceSeparated (text : List Char) : List (List Char) :=
  go [] text
where
  /-- Continues with `word` as the run read so far. -/
  go (word : List Char) : List Char → List (List Char)
    | [] => if word.isEmpty then [] else [word]
    | c :: rest =>
      if isSpace c then
        if word.isEmpty then go [] rest else word :: go [] rest
      else go (word ++ [c]) rest

/-! ### What trimming keeps -/

theorem isBlank_iff {text : List Char} : isBlank text = true ↔ ∀ c ∈ text, isSpace c = true := by
  simp [isBlank]

/-- Trimming at the front leaves a suffix. -/
theorem trimStart_suffix (text : List Char) : trimStart text <:+ text :=
  List.dropWhile_suffix _

theorem length_trimStart_le (text : List Char) : (trimStart text).length ≤ text.length :=
  (trimStart_suffix text).length_le

/-- Nothing remains exactly of a blank text. -/
theorem trimStart_eq_nil_iff {text : List Char} :
    trimStart text = [] ↔ isBlank text = true := by
  induction text with
  | nil => simp [trimStart, isBlank]
  | cons c rest ih =>
    by_cases h : isSpace c = true
    · have hstart : trimStart (c :: rest) = trimStart rest := by simp [trimStart, h]
      have hblank : isBlank (c :: rest) = isBlank rest := by simp [isBlank, h]
      rw [hstart, hblank, ih]
    · simp [trimStart, isBlank, h]

/-- Something remains exactly of a text that is not blank. -/
theorem trimStart_ne_nil_iff {text : List Char} :
    trimStart text ≠ [] ↔ isBlank text = false := by
  rw [ne_eq, trimStart_eq_nil_iff, Bool.not_eq_true]

/-- What remains begins with a visible character. -/
theorem head?_trimStart {text : List Char} {c : Char} (h : (trimStart text).head? = some c) :
    isSpace c = false := by
  have hd := List.head?_dropWhile_not isSpace text
  rw [trimStart] at h
  rw [h] at hd
  exact hd

theorem trimEnd_cons (c : Char) (rest : List Char) :
    trimEnd (c :: rest) =
      if trimEnd rest = [] then (if isSpace c then [] else [c]) else c :: trimEnd rest := by
  rw [trimEnd]
  split
  · next h => rw [if_pos h]
  · next h => rw [if_neg h]

/-- A visible character at the front stays. -/
theorem trimEnd_cons_of_visible {c : Char} (rest : List Char) (h : isSpace c = false) :
    trimEnd (c :: rest) = c :: trimEnd rest := by
  rw [trimEnd_cons]
  split
  · next hrest => simp [h, hrest]
  · rfl

/-- Trimming at the back leaves a part that begins the text. -/
theorem trimEnd_isPrefix (text : List Char) : trimEnd text <+: text := by
  induction text with
  | nil => exact List.prefix_refl _
  | cons c rest ih =>
    rw [trimEnd_cons]
    split
    · split
      · exact List.nil_prefix
      · exact ⟨rest, rfl⟩
    · exact (List.prefix_cons_inj c).2 ih

theorem length_trimEnd_le (text : List Char) : (trimEnd text).length ≤ text.length :=
  (trimEnd_isPrefix text).length_le

/-- Nothing remains exactly of a blank text. -/
theorem trimEnd_eq_nil_iff {text : List Char} : trimEnd text = [] ↔ isBlank text = true := by
  induction text with
  | nil => simp [trimEnd, isBlank]
  | cons c rest ih =>
    rw [trimEnd_cons]
    by_cases h : trimEnd rest = []
    · have hr := ih.1 h
      by_cases hc : isSpace c = true <;> simp_all [isBlank]
    · have hr : ¬ isBlank rest = true := fun hb ↦ h (ih.2 hb)
      rw [if_neg h]
      simp only [isBlank, List.all_cons, Bool.and_eq_true, reduceCtorEq, false_iff, not_and]
      exact fun _ ↦ hr

/-- What is trimmed away at the end is blank. -/
theorem exists_trimEnd_append (text : List Char) :
    ∃ blanks, isBlank blanks = true ∧ text = trimEnd text ++ blanks := by
  induction text with
  | nil => exact ⟨[], rfl, rfl⟩
  | cons c rest ih =>
    obtain ⟨blanks, hblank, hrest⟩ := ih
    rw [trimEnd_cons]
    split
    · next hnil =>
      have hrest := trimEnd_eq_nil_iff.1 hnil
      split
      · next hc =>
        refine ⟨c :: rest, ?_, rfl⟩
        rw [isBlank, List.all_cons, hc, Bool.true_and]
        exact hrest
      · exact ⟨rest, hrest, rfl⟩
    · exact ⟨blanks, hblank, by rw [List.cons_append, ← hrest]⟩

/-- What remains ends with a visible character. -/
theorem getLast?_trimEnd {text : List Char} {c : Char} (h : (trimEnd text).getLast? = some c) :
    isSpace c = false := by
  induction text with
  | nil => simp [trimEnd] at h
  | cons d rest ih =>
    rw [trimEnd_cons] at h
    split at h
    · split at h
      · simp at h
      · next hd =>
        obtain rfl : d = c := by simpa using h
        simpa using hd
    · next hrest =>
      rw [List.getLast?_cons_of_ne_nil hrest] at h
      exact ih h

/-- A text is kept as it is exactly if no blank ends it. -/
theorem trimEnd_eq_self_iff {text : List Char} :
    trimEnd text = text ↔ ∀ c ∈ text.getLast?, isSpace c = false := by
  constructor
  · intro h c hc
    rw [← h] at hc
    exact getLast?_trimEnd hc
  · intro h
    obtain ⟨blanks, hblank, htext⟩ := exists_trimEnd_append text
    cases hlast : blanks.getLast? with
    | none =>
      rw [List.getLast?_eq_none_iff.1 hlast, List.append_nil] at htext
      exact htext.symm
    | some c =>
      have hc := isBlank_iff.1 hblank c (List.mem_of_getLast? hlast)
      rw [h c (by rw [htext, List.getLast?_append, hlast]; rfl)] at hc
      exact absurd hc Bool.false_ne_true

theorem trimEnd_trimEnd (text : List Char) : trimEnd (trimEnd text) = trimEnd text :=
  trimEnd_eq_self_iff.2 fun _ ↦ getLast?_trimEnd

theorem isBlank_trimEnd (text : List Char) : isBlank (trimEnd text) = isBlank text := by
  rw [Bool.eq_iff_iff, ← trimEnd_eq_nil_iff, trimEnd_trimEnd, trimEnd_eq_nil_iff]

/-- Only the end of a text is trimmed when something visible stands there. -/
theorem trimEnd_append {s t : List Char} (h : trimEnd t ≠ []) :
    trimEnd (s ++ t) = s ++ trimEnd t := by
  induction s with
  | nil => rfl
  | cons c s ih =>
    rw [List.cons_append, trimEnd_cons, ih, if_neg (by simp [h]), List.cons_append]

/-- Blanks at the end of a text are trimmed away. -/
theorem trimEnd_append_of_isBlank (s : List Char) {t : List Char} (h : isBlank t = true) :
    trimEnd (s ++ t) = trimEnd s := by
  induction s with
  | nil => exact trimEnd_eq_nil_iff.2 h
  | cons c s ih => rw [List.cons_append, trimEnd_cons, trimEnd_cons, ih]

/-- Only the start of a text is trimmed when something visible stands there. -/
theorem trimStart_append {s : List Char} (t : List Char) (h : isBlank s = false) :
    trimStart (s ++ t) = trimStart s ++ t := by
  have hne : trimStart s ≠ [] :=
    fun hs ↦ absurd ((trimStart_eq_nil_iff.1 hs).symm.trans h) (by simp)
  have hempty : (s.dropWhile isSpace).isEmpty = false := List.isEmpty_eq_false_iff.2 hne
  rw [trimStart, List.dropWhile_append, hempty]
  rfl

/-- A text that ends with a visible character has nothing to trim there. -/
theorem trimEnd_concat {c : Char} (text : List Char) (h : isSpace c = false) :
    trimEnd (text ++ [c]) = text ++ [c] := by
  have hc : trimEnd [c] = [c] := by simp [trimEnd, h]
  rw [trimEnd_append (by simp [hc]), hc]

theorem trimStart_cons {c : Char} (rest : List Char) (h : isSpace c = false) :
    trimStart (c :: rest) = c :: rest := by
  simp [trimStart, h]

end ShellCatalog
