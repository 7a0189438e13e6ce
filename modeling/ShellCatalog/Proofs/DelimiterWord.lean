import ShellCatalog.Proofs.EscapedText
import ShellCatalog.Proofs.GoodName

/-!
# Delimiter words and how they are read ahead

The word that announces a here-document may mix bare characters, escaped ones and quoted parts. Its
value is what the shell makes of it: the quotes go, and so does every backslash that escapes. The
look-ahead (`HereDoc.delimiterFrom`) is followed here character by character (`HereDoc.readFrom`),
so that what it takes for quoted can be compared with what the reader of code makes of the text.

**The look-ahead knows no escapes between double quotes.** It finds the value exactly if no quote
and no backslash is escaped there (`HereDoc.delimiterFrom_eq_value_iff`): a backslash too many is
never made up for, since what follows it in the value is again a backslash or differs at once
(`HereDoc.AgreesIff`).
-/

namespace ShellCatalog

/-! ### Words -/

/-- The character that a unit is made for. -/
def CharUnit.char : CharUnit → Char
  | plain c | escaped c => c

/-- What a unit stands for between double quotes, where a backslash takes only a quote or another
backslash literally and is kept in front of anything else. -/
def CharUnit.quotedValue : CharUnit → List Char
  | plain c => [c]
  | escaped c => if c = '"' ∨ c = '\\' then [c] else ['\\', c]

/-- A unit that may stand between the double quotes of a delimiter word: nothing is expanded, and
what means something is escaped. -/
def CharUnit.isQuotable : CharUnit → Bool
  | plain c => c ∉ ['"', '\\', '$', '\x60', '\n']
  | escaped c => c ∉ ['$', '\x60', '\n']

/-- A part of a delimiter word: a unit outside quotes, a text between single quotes, or units
between double quotes. -/
inductive WordPart
  | bare (u : CharUnit)
  | single (inner : List Char)
  | double (units : List CharUnit)
  deriving DecidableEq, Repr

namespace WordPart

/-- The part as it is written. -/
def text : WordPart → List Char
  | bare u => u.chars
  | single inner => '\'' :: (inner ++ ['\''])
  | double units => '"' :: (unitText units ++ ['"'])

/-- The part without its quotes and the backslashes that escape. -/
def value : WordPart → List Char
  | bare u => [u.char]
  | single inner => inner
  | double units => units.flatMap CharUnit.quotedValue

/-- The characters of a quoted text, each with the quote that is open behind it. -/
def quotedPlaces (quote : Char) (inner : List Char) : List (Char × Option Char) :=
  (quote, some quote) :: (inner.map (·, some quote) ++ [(quote, none)])

/-- The characters of the part, each with the quote that is open behind it. -/
def places : WordPart → List (Char × Option Char)
  | bare u => u.chars.map (·, none)
  | single inner => quotedPlaces '\'' inner
  | double units => quotedPlaces '"' (unitText units)

/-- The part may stand in a delimiter word. -/
def isWritten : WordPart → Bool
  | bare (.plain c) => isWordChar c
  | bare (.escaped c) => c ≠ '\n'
  | single inner => '\'' ∉ inner ∧ '\n' ∉ inner
  | double units => units.all CharUnit.isQuotable

/-- Between double quotes nothing is escaped that a backslash could take literally. -/
def isVerbatim : WordPart → Bool
  | double units => .escaped '"' ∉ units ∧ .escaped '\\' ∉ units
  | _ => true

@[simp] theorem isVerbatim_bare (u : CharUnit) : (bare u).isVerbatim = true := rfl

@[simp] theorem isVerbatim_single (inner : List Char) : (single inner).isVerbatim = true := rfl

@[simp] theorem isVerbatim_double {units : List CharUnit} :
    (double units).isVerbatim = true ↔ .escaped '"' ∉ units ∧ .escaped '\\' ∉ units := by
  simp [isVerbatim]

@[simp] theorem isWritten_single {inner : List Char} :
    (single inner).isWritten = true ↔ '\'' ∉ inner ∧ '\n' ∉ inner := by
  simp [isWritten]

@[simp] theorem isWritten_double {units : List CharUnit} :
    (double units).isWritten = true ↔ ∀ u ∈ units, u.isQuotable = true := by
  simp [isWritten]

end WordPart

/-- A delimiter word as it is written. -/
def wordText (parts : List WordPart) : List Char :=
  parts.flatMap WordPart.text

/-- A delimiter word without its quotes and the backslashes that escape. -/
def wordValue (parts : List WordPart) : List Char :=
  parts.flatMap WordPart.value

/-- The characters of a delimiter word, each with the quote that is open behind it. -/
def wordPlaces (parts : List WordPart) : List (Char × Option Char) :=
  parts.flatMap WordPart.places

/-- The places of a word are those of its text. -/
theorem map_fst_wordPlaces (parts : List WordPart) :
    (wordPlaces parts).map Prod.fst = wordText parts := by
  have hquoted (quote : Char) (inner : List Char) :
      (WordPart.quotedPlaces quote inner).map Prod.fst = quote :: (inner ++ [quote]) := by
    simp [WordPart.quotedPlaces, Function.comp_def]
  rw [wordPlaces, List.map_flatMap, wordText]
  refine List.flatMap_congr fun part _ ↦ ?_
  cases part with
  | bare u => simp [WordPart.places, WordPart.text, Function.comp_def]
  | single inner => exact hquoted ..
  | double units => exact hquoted ..

/-- A part begins with a character that neither belongs to an operator nor is a blank. -/
theorem WordPart.exists_text_cons {part : WordPart} (written : part.isWritten = true) :
    ∃ c rest, part.text = c :: rest ∧ isIndent c = false ∧ c ≠ '<' ∧ c ≠ '-' := by
  cases part with
  | bare u =>
    cases u with
    | plain c =>
      refine ⟨c, [], rfl, ?_, ?_, ?_⟩
      · by_contra h
        rw [Bool.not_eq_false, isIndent, Bool.or_eq_true, beq_iff_eq, beq_iff_eq] at h
        rcases h with rfl | rfl <;> exact absurd written (by decide)
      · rintro rfl
        exact absurd written (by decide)
      · rintro rfl
        exact absurd written (by decide)
    | escaped c => exact ⟨_, _, rfl, by decide, by decide, by decide⟩
  | single inner => exact ⟨_, _, rfl, by decide, by decide, by decide⟩
  | double units => exact ⟨_, _, rfl, by decide, by decide, by decide⟩

/-! ### The look-ahead, character by character -/

namespace HereDoc

/-- A character of a delimiter word as it is read ahead: the quote that is open behind it, and
whether the delimiter keeps it. -/
structure ReadChar where
  char : Char
  quote : Option Char
  kept : Bool
  deriving DecidableEq, Repr

/-- The character and the quote that is open behind it. -/
def ReadChar.quotedPlace (r : ReadChar) : Char × Option Char :=
  (r.char, r.quote)

/-- The characters that `delimiterFrom` reads before it stops. -/
def readFrom (quote : Option Char) : List Char → List ReadChar
  | [] => []
  | c :: rest =>
    match quote with
    | some q =>
      if c = q then ⟨c, none, false⟩ :: readFrom none rest
      else ⟨c, quote, true⟩ :: readFrom quote rest
    | none =>
      if c = '\'' ∨ c = '"' then ⟨c, some c, false⟩ :: readFrom (some c) rest
      else if c = '\\' then
        match rest with
        | [] => [⟨c, none, false⟩]
        | d :: rest' => ⟨c, none, false⟩ :: ⟨d, none, true⟩ :: readFrom none rest'
      else if endsWord c then []
      else ⟨c, none, true⟩ :: readFrom none rest

/-- The delimiter is what is kept of the characters read. -/
theorem delimiterFrom_eq_kept (quote : Option Char) (text : List Char) :
    delimiterFrom quote text = ((readFrom quote text).filter ReadChar.kept).map ReadChar.char := by
  fun_induction readFrom quote text with
  | case4 c rest hquote ih =>
    have hescape : c ≠ '\\' := by rcases hquote with rfl | rfl <;> decide
    rw [delimiterFrom_of_ne _ hescape, if_pos hquote, ih, List.filter_cons_of_neg (by simp)]
  | _ => simp_all [delimiterFrom, delimiterFrom_of_ne]

/-- What is read is a stretch at the front of the text. -/
theorem readFrom_prefix (quote : Option Char) (text : List Char) :
    (readFrom quote text).map ReadChar.char <+: text := by
  fun_induction readFrom quote text <;> simp_all

theorem readFrom_quoted (q c : Char) (rest : List Char) :
    readFrom (some q) (c :: rest) =
      if c = q then ⟨c, none, false⟩ :: readFrom none rest
      else ⟨c, some q, true⟩ :: readFrom (some q) rest := by
  rw [readFrom]

/-- A quote is read up to its end, and what stands in it is kept. -/
theorem readFrom_closed {q : Char} {inner : List Char} (unquoted : q ∉ inner) (rest : List Char) :
    readFrom (some q) (inner ++ q :: rest) =
      inner.map (⟨·, some q, true⟩) ++ ⟨q, none, false⟩ :: readFrom none rest := by
  induction inner with
  | nil => rw [List.nil_append, readFrom_quoted, if_pos rfl, List.map_nil, List.nil_append]
  | cons c inner ih =>
    rw [List.mem_cons, not_or] at unquoted
    rw [List.cons_append, readFrom_quoted, if_neg (Ne.symm unquoted.1), ih unquoted.2,
      List.map_cons, List.cons_append]

/-! ### What is read of a word -/

variable {units : List CharUnit} {parts : List WordPart}

theorem endsWord_of_isOrdinary {c : Char} (ordinary : isOrdinary c = true) :
    endsWord c = false := by
  obtain ⟨visible, hspecial⟩ := isOrdinary_iff.1 ordinary
  simp only [specialChars, List.mem_cons, List.not_mem_nil, or_false, not_or] at hspecial
  simp [endsWord, visible, hspecial]

/-- A word character is read as itself. -/
theorem readFrom_wordChar {c : Char} (rest : List Char) (word : isWordChar c = true) :
    readFrom none (c :: rest) = ⟨c, none, true⟩ :: readFrom none rest := by
  have ordinary := isOrdinary_of_isWordChar word
  have hspecial : c ≠ '\'' ∧ c ≠ '"' ∧ c ≠ '\\' := by
    refine ⟨?_, ?_, ?_⟩ <;> rintro rfl <;> exact absurd ordinary (by decide)
  rw [readFrom.eq_def]
  simp [hspecial, endsWord_of_isOrdinary ordinary]

/-- A blank ends a word. -/
theorem readFrom_blank {e : Char} (rest : List Char) (ends : isSpace e = true) :
    readFrom none (e :: rest) = [] := by
  have hspecial : e ≠ '\'' ∧ e ≠ '"' ∧ e ≠ '\\' := by
    refine ⟨?_, ?_, ?_⟩ <;> rintro rfl <;> exact absurd ends (by decide)
  rw [readFrom.eq_def]
  simp [hspecial, endsWord, ends]

/-- Units without quotes or backslashes that are escaped stand for what is written, and hold no
quote. -/
theorem quotedValue_of_verbatim (quotable : ∀ u ∈ units, u.isQuotable = true)
    (verbatim : .escaped '"' ∉ units ∧ .escaped '\\' ∉ units) :
    units.flatMap CharUnit.quotedValue = unitText units ∧ '"' ∉ unitText units := by
  induction units with
  | nil => simp
  | cons u units ih =>
    simp only [List.mem_cons, not_or] at verbatim
    rw [List.forall_mem_cons] at quotable
    obtain ⟨hvalue, hquote⟩ := ih quotable.2 ⟨verbatim.1.2, verbatim.2.2⟩
    cases u with
    | plain c =>
      have hc : c ≠ '"' := by
        rintro rfl
        exact absurd quotable.1 (by decide)
      rw [List.flatMap_cons, hvalue, unitText_cons]
      exact ⟨rfl, by simpa [CharUnit.chars, hquote] using hc.symm⟩
    | escaped c =>
      have hc : ¬ (c = '"' ∨ c = '\\') := by
        rintro (rfl | rfl)
        · exact verbatim.1.1 rfl
        · exact verbatim.2.1 rfl
      rw [List.flatMap_cons, hvalue, unitText_cons, CharUnit.quotedValue, if_neg hc]
      rw [not_or] at hc
      exact ⟨rfl, by simpa [CharUnit.chars, hquote] using Ne.symm hc.1⟩

/-- A quoted part is read up to its closing quote. -/
theorem map_quotedPlace_readFrom_quoted {q : Char} {inner : List Char} (hq : q = '\'' ∨ q = '"')
    (unquoted : q ∉ inner) (behind : List Char) :
    (readFrom none (q :: (inner ++ [q]) ++ behind)).map ReadChar.quotedPlace =
      WordPart.quotedPlaces q inner ++ (readFrom none behind).map ReadChar.quotedPlace := by
  have hopen : readFrom none (q :: (inner ++ q :: behind)) =
      ⟨q, some q, false⟩ :: readFrom (some q) (inner ++ q :: behind) := by
    rw [readFrom.eq_def]
    exact if_pos hq
  rw [List.cons_append, List.append_assoc, List.singleton_append, hopen, readFrom_closed unquoted]
  simp [WordPart.quotedPlaces, ReadChar.quotedPlace, Function.comp_def]

/-- The look-ahead takes every character of a part for what it is when nothing is escaped there
between double quotes. -/
theorem map_quotedPlace_readFrom_part {part : WordPart} (written : part.isWritten = true)
    (verbatim : part.isVerbatim = true) (behind : List Char) :
    (readFrom none (part.text ++ behind)).map ReadChar.quotedPlace =
      part.places ++ (readFrom none behind).map ReadChar.quotedPlace := by
  cases part with
  | bare u =>
    cases u with
    | plain c =>
      rw [WordPart.text, CharUnit.chars, List.singleton_append, readFrom_wordChar _ written]
      rfl
    | escaped c => rfl
  | single inner =>
    exact map_quotedPlace_readFrom_quoted (.inl rfl) (WordPart.isWritten_single.1 written).1 behind
  | double units =>
    refine map_quotedPlace_readFrom_quoted (.inr rfl) ?_ behind
    exact (quotedValue_of_verbatim (WordPart.isWritten_double.1 written)
      (WordPart.isVerbatim_double.1 verbatim)).2

theorem map_quotedPlace_readFrom_word {e : Char} (rest : List Char) (ends : isSpace e = true)
    (written : ∀ part ∈ parts, part.isWritten = true)
    (verbatim : ∀ part ∈ parts, part.isVerbatim = true) :
    (readFrom none (wordText parts ++ e :: rest)).map ReadChar.quotedPlace = wordPlaces parts := by
  induction parts with
  | nil => simp [wordText, wordPlaces, readFrom_blank rest ends]
  | cons part parts ih =>
    rw [List.forall_mem_cons] at written verbatim
    rw [wordText, List.flatMap_cons, List.append_assoc,
      map_quotedPlace_readFrom_part written.1 verbatim.1, wordPlaces, List.flatMap_cons]
    exact congrArg _ (ih written.2 verbatim.2)

/-! ### What is kept of a word -/

/-- However many backslashes stand in front of what is read, the whole is the value only if there
are none and `P` holds. -/
def AgreesIff (read value : List Char) (P : Prop) : Prop :=
  ∀ k, List.replicate k '\\' ++ read = value ↔ k = 0 ∧ P

namespace AgreesIff

variable {read value : List Char} {P : Prop}

theorem nil : AgreesIff [] [] True := by
  simp [AgreesIff]

/-- A character that both have in front changes nothing. -/
theorem cons (c : Char) (h : AgreesIff read value P) : AgreesIff (c :: read) (c :: value) P := by
  intro k
  cases k with
  | zero => simpa using h 0
  | succ k =>
    refine iff_of_false (fun heq ↦ ?_) (by simp)
    rw [List.replicate_succ, List.cons_append, List.cons.injEq] at heq
    obtain ⟨rfl, heq⟩ := heq
    have hmore : List.replicate (k + 1) '\\' ++ read = value := by
      rw [← heq, List.replicate_succ', List.append_assoc, List.singleton_append]
    exact absurd ((h _).1 hmore).1 (Nat.succ_ne_zero k)

theorem append (front : List Char) (h : AgreesIff read value P) :
    AgreesIff (front ++ read) (front ++ value) P := by
  induction front with
  | nil => exact h
  | cons c front ih => exact ih.cons c

/-- A backslash too many stays one too many. -/
theorem backslash (h : AgreesIff read value P) :
    AgreesIff ('\\' :: '\\' :: read) ('\\' :: value) False := by
  intro k
  refine iff_of_false (fun heq ↦ ?_) (by simp)
  have hmore : '\\' :: (List.replicate (k + 1) '\\' ++ read) = '\\' :: value := by
    rw [← heq, ← List.cons_append, ← List.replicate_succ, List.replicate_succ',
      List.replicate_succ']
    simp
  exact absurd ((h _).1 (List.cons.inj hmore).2).1 (Nat.succ_ne_zero k)

/-- A backslash where the value has a quote. -/
theorem quote (read value : List Char) : AgreesIff ('\\' :: read) ('"' :: value) False := by
  intro k
  cases k <;> simp [List.replicate_succ]

theorem congr {Q : Prop} (h : AgreesIff read value P) (hPQ : P ↔ Q) : AgreesIff read value Q :=
  fun k ↦ (h k).trans (and_congr_right fun _ ↦ hPQ)

end AgreesIff

/-- Between double quotes the look-ahead agrees with the value as far as nothing is escaped that a
backslash takes literally. -/
theorem agreesIff_double {behind value : List Char} {P : Prop}
    (quotable : ∀ u ∈ units, u.isQuotable = true)
    (h : AgreesIff (delimiterFrom none behind) value P) :
    AgreesIff (delimiterFrom (some '"') (unitText units ++ '"' :: behind))
      (units.flatMap CharUnit.quotedValue ++ value)
      ((.escaped '"' ∉ units ∧ .escaped '\\' ∉ units) ∧ P) := by
  induction units with
  | nil => simpa [delimiterFrom_quoted] using h
  | cons u units ih =>
    rw [List.forall_mem_cons] at quotable
    have ih := ih quotable.2
    rw [unitText_cons, List.append_assoc, List.flatMap_cons, List.append_assoc]
    cases u with
    | plain c =>
      have hc : c ≠ '"' := by
        rintro rfl
        exact absurd quotable.1 (by decide)
      rw [CharUnit.chars, List.singleton_append, delimiterFrom_quoted, if_neg hc]
      exact (ih.cons c).congr (by simp)
    | escaped c =>
      rw [CharUnit.chars, List.cons_append, List.singleton_append, delimiterFrom_quoted,
        if_neg (by decide)]
      by_cases hquote : c = '"'
      · rw [hquote]
        exact (AgreesIff.quote _ _).congr (by simp)
      rw [delimiterFrom_quoted, if_neg hquote]
      by_cases hbackslash : c = '\\'
      · rw [hbackslash]
        exact ih.backslash.congr (by simp)
      · rw [CharUnit.quotedValue, if_neg (not_or.2 ⟨hquote, hbackslash⟩)]
        exact ((ih.cons c).cons '\\').congr (by simp [Ne.symm hquote, Ne.symm hbackslash])

/-- A part adds to both what it stands for. -/
theorem agreesIff_part {part : WordPart} {behind value : List Char} {P : Prop}
    (written : part.isWritten = true) (h : AgreesIff (delimiterFrom none behind) value P) :
    AgreesIff (delimiterFrom none (part.text ++ behind)) (part.value ++ value)
      (part.isVerbatim = true ∧ P) := by
  cases part with
  | bare u =>
    have hread : delimiterFrom none (u.chars ++ behind) = u.char :: delimiterFrom none behind := by
      cases u with
      | plain c =>
        rw [CharUnit.chars, List.singleton_append, delimiterFrom_eq_kept,
          readFrom_wordChar _ written, delimiterFrom_eq_kept none behind]
        rfl
      | escaped c => exact delimiterFrom_backslash ..
    rw [WordPart.text, hread]
    exact (h.cons u.char).congr (by simp)
  | single inner =>
    have hread : delimiterFrom (some '\'') (inner ++ '\'' :: behind) =
        inner ++ delimiterFrom none behind := by
      rw [delimiterFrom_eq_kept, readFrom_closed (WordPart.isWritten_single.1 written).1,
        delimiterFrom_eq_kept none behind]
      simp [List.filter_map, Function.comp_def]
    rw [WordPart.text, List.cons_append, List.append_assoc, List.singleton_append,
      delimiterFrom_of_ne _ (by decide), if_pos (.inl rfl), hread]
    exact (h.append inner).congr (by simp)
  | double units =>
    rw [WordPart.text, List.cons_append, List.append_assoc, List.singleton_append,
      delimiterFrom_of_ne _ (by decide), if_pos (.inr rfl)]
    exact (agreesIff_double (WordPart.isWritten_double.1 written) h).congr (by simp)

theorem agreesIff_word {e : Char} (rest : List Char) (ends : isSpace e = true)
    (written : ∀ part ∈ parts, part.isWritten = true) :
    AgreesIff (delimiterFrom none (wordText parts ++ e :: rest)) (wordValue parts)
      (∀ part ∈ parts, part.isVerbatim = true) := by
  induction parts with
  | nil =>
    have hnil : delimiterFrom none (wordText [] ++ e :: rest) = [] := by
      rw [delimiterFrom_eq_kept, wordText, List.flatMap_nil, List.nil_append,
        readFrom_blank rest ends]
      rfl
    rw [hnil]
    exact AgreesIff.nil.congr (by simp)
  | cons part parts ih =>
    rw [List.forall_mem_cons] at written
    rw [wordText, List.flatMap_cons, List.append_assoc, wordValue, List.flatMap_cons,
      List.forall_mem_cons]
    exact agreesIff_part written.1 (ih written.2)

/-- The look-ahead finds the value of a word exactly if nothing is escaped between its double
quotes. -/
theorem delimiterFrom_eq_value_iff {e : Char} (rest : List Char) (ends : isSpace e = true)
    (written : ∀ part ∈ parts, part.isWritten = true) :
    delimiterFrom none (wordText parts ++ e :: rest) = wordValue parts ↔
      ∀ part ∈ parts, part.isVerbatim = true := by
  simpa using agreesIff_word rest ends written 0

end HereDoc

end ShellCatalog
