import ShellCatalog.Proofs.DelimiterWord
import ShellCatalog.Proofs.DoubleQuotes
import ShellCatalog.Proofs.EndOfText
import ShellCatalog.Proofs.LookBehind

/-!
# The delimiter word in code

The word behind `<<` is read twice: ahead, for the delimiter, and then as code, for what follows it.
The two readers should stop at the same character and be inside quotes at the same places, since
otherwise the line that ends the document is never found, or the quotes of the rest of the line are
taken the wrong way round.

**Each of them misses one rule that the other has.** The look-ahead takes a backslash between double
quotes for itself, which code takes for an escape. Code takes a single quote behind an escaped
dollar sign for an ANSI-C quote, in which a backslash escapes, and the look-ahead does not. A word
on which neither happens is read as it is meant by both; on any other they differ, or they agree on
the wrong delimiter (`Nesting.delimiter_agrees_iff`).
-/

namespace ShellCatalog

/-- The quote that a character stands in. -/
def Mode.quote? : Mode → Option Char
  | .single | .ansi => some '\''
  | .double => some '"'
  | .backquote => some '\x60'
  | _ => none

/-- The character and the quote that is open behind it. -/
def Mark.quotedPlace (m : Mark) : Char × Option Char :=
  (m.char, m.after.mode.quote?)

/-- A character of code that ends a word. -/
def Mark.endsWord (m : Mark) : Bool :=
  m.role = .code ∧ HereDoc.endsWord m.char

/-- A backslash at the end of the text takes the next character literally, in a text where
backslashes escape. -/
def escapesNext (text : List Char) (waiting : Bool := false) : Bool :=
  text.foldl (fun waiting c ↦ !waiting && c == '\\') waiting

/-- Behind an escaped dollar sign stand single quotes, and a backslash in front of the closing one
would escape it in an ANSI-C quote. -/
def HidesQuote (parts : List WordPart) : Prop :=
  ∃ inner, escapesNext inner = true ∧ [.bare (.escaped '$'), .single inner] <:+: parts

/-- The first part is the dollar sign and the second the text, or both stand further behind. -/
theorem hidesQuote_cons {part : WordPart} {parts : List WordPart} :
    HidesQuote (part :: parts) ↔
      (part = .bare (.escaped '$') ∧
        ∃ inner, escapesNext inner = true ∧ parts.head? = some (.single inner)) ∨
      HidesQuote parts := by
  have hhead (inner : List Char) :
      [WordPart.single inner] <+: parts ↔ parts.head? = some (.single inner) := by
    cases parts <;> simp [eq_comm]
  constructor
  · rintro ⟨inner, escapes, hinfix⟩
    rw [List.infix_cons_iff, List.cons_prefix_cons, hhead] at hinfix
    rcases hinfix with ⟨hpart, hnext⟩ | hinfix
    · exact .inl ⟨hpart.symm, inner, escapes, hnext⟩
    · exact .inr ⟨inner, escapes, hinfix⟩
  · rintro (⟨hpart, inner, escapes, hnext⟩ | ⟨inner, escapes, hinfix⟩)
    · refine ⟨inner, escapes, List.infix_cons_iff.2 (.inl ?_)⟩
      rw [List.cons_prefix_cons, hhead]
      exact ⟨hpart.symm, hnext⟩
    · exact ⟨inner, escapes, List.infix_cons_iff.2 (.inr hinfix)⟩

namespace Nesting

variable {p : Profile} {s t u : Nesting}

/-- The places of the word that `text` begins with, when it is read as code. -/
def placesFrom (p : Profile) (s : Nesting) (offset : Nat) (text : List Char) :
    List (Char × Option Char) :=
  ((marksFrom p s offset text).takeWhile fun m ↦ !m.endsWord).map Mark.quotedPlace

/-- With `behind` following it, `text` is read from `s` to `t` without ending a word, and these are
its places. -/
inductive Passes (p : Profile) (behind : List Char) :
    Nesting → List Char → List (Char × Option Char) → Nesting → Prop
  | nil (s : Nesting) : Passes p behind s [] [] s
  | cons {s t u : Nesting} {c : Char} {role : CharRole} {quote : Option Char} {text : List Char}
      {places : List (Char × Option Char)} : s.step p c (text ++ behind) = (t, role) →
      (role = .code → HereDoc.endsWord c = false) → t.mode.quote? = quote →
      Passes p behind t text places u → Passes p behind s (c :: text) ((c, quote) :: places) u

namespace Passes

variable {text more behind : List Char} {places places' : List (Char × Option Char)}

theorem append (h : Passes p (more ++ behind) s text places t)
    (h' : Passes p behind t more places' u) :
    Passes p behind s (text ++ more) (places ++ places') u := by
  induction h with
  | nil => exact h'
  | cons hstep hword hquote _ ih =>
    rw [← List.append_assoc] at hstep
    exact .cons hstep hword hquote (ih h')

theorem singleton {c : Char} {role : CharRole} {quote : Option Char}
    (hstep : s.step p c behind = (t, role)) (hword : role = .code → HereDoc.endsWord c = false)
    (hquote : t.mode.quote? = quote) : Passes p behind s [c] [(c, quote)] t :=
  .cons hstep hword hquote (.nil t)

/-- The word goes on behind what is passed. -/
theorem placesFrom_append (h : Passes p behind s text places t) (offset : Nat) :
    ∃ offset', placesFrom p s offset (text ++ behind) =
      places ++ placesFrom p t offset' behind := by
  induction h generalizing offset with
  | nil => exact ⟨offset, rfl⟩
  | @cons s t u c role quote text places hstep hword hquote _ ih =>
    obtain ⟨offset', hplaces⟩ := ih (offset + c.utf8Size)
    refine ⟨offset', ?_⟩
    subst hquote
    have hends : Mark.endsWord ⟨offset, c, role, s, t⟩ = false := by
      simpa [Mark.endsWord, ← imp_iff_not_or] using hword
    rw [List.cons_append, placesFrom, marksFrom_cons, hstep,
      List.takeWhile_cons_of_pos (by simp [hends])]
    exact congrArg (_ :: ·) hplaces

end Passes

/-- A blank in code ends the word. -/
theorem placesFrom_blank {d : Dialect} {e : Char} (offset : Nat) (rest : List Char)
    (code : s.mode = .code) (ready : s.escaping = false) (ends : isSpace e = true) :
    placesFrom d.profile s offset (e :: rest) = [] := by
  have hrole : (s.step d.profile e rest).2 = .code := by
    by_cases he : e = '\n'
    · have hspecial : '\n' ≠ d.profile.escape ∧ '\n' ≠ d.profile.comment := by cases d <;> decide
      simp [he, step, react, inCode, code, ready, hspecial]
    · rw [step_plain rest code ready (d.isPlain_of_isSpace ends he)]
  rw [placesFrom, marksFrom_cons, List.takeWhile_cons_of_neg (by
    simp [Mark.endsWord, HereDoc.endsWord, hrole, ends])]
  rfl

/-! ### Quoted parts -/

/-- Between single quotes. -/
theorem exists_passes_single {inner : List Char} (behind : List Char) (single : s.mode = .single)
    (ready : s.escaping = false) (unquoted : '\'' ∉ inner) :
    ∃ t, t.mode = .single ∧ t.escaping = false ∧
      Passes p behind s inner (inner.map (·, some '\'')) t := by
  induction inner generalizing s with
  | nil => exact ⟨s, single, ready, .nil s⟩
  | cons c inner ih =>
    rw [List.mem_cons, not_or] at unquoted
    obtain ⟨r, role, hstep, hmode, hready, hrole⟩ : ∃ r role,
        s.step p c (inner ++ behind) = (r, role) ∧ r.mode = .single ∧ r.escaping = false ∧
          role ≠ .code :=
      ⟨_, _, step_single _ single ready (Ne.symm unquoted.1), single, ready, by simp⟩
    obtain ⟨t, hmode', hready', hpasses⟩ := ih hmode hready unquoted.2
    exact ⟨t, hmode', hready', .cons hstep (fun h ↦ absurd h hrole) (by rw [hmode]; rfl) hpasses⟩

/-- Between ANSI-C quotes a backslash escapes, and no other character but the closing quote means
anything. -/
theorem exists_step_ansi {c : Char} (rest : List Char) (ansi : s.mode = .ansi) (hc : c ≠ '\'') :
    ∃ t role, s.step p c rest = (t, role) ∧ t.mode = .ansi ∧
      t.escaping = (!s.escaping && c == '\\') ∧ role ≠ .code := by
  refine ⟨(s.step p c rest).1, (s.step p c rest).2, rfl, ?_⟩
  cases ready : s.escaping with
  | true =>
    rw [step_of_escaping c rest ready]
    exact ⟨ansi, rfl, by simp⟩
  | false =>
    by_cases hbackslash : c = '\\' <;> simp [step, react, inQuotes, ansi, ready, hc, hbackslash]

theorem exists_passes_ansi {inner : List Char} (behind : List Char) (ansi : s.mode = .ansi)
    (unquoted : '\'' ∉ inner) :
    ∃ t, t.mode = .ansi ∧ t.escaping = escapesNext inner s.escaping ∧
      Passes p behind s inner (inner.map (·, some '\'')) t := by
  induction inner generalizing s with
  | nil => exact ⟨s, ansi, rfl, .nil s⟩
  | cons c inner ih =>
    rw [List.mem_cons, not_or] at unquoted
    obtain ⟨r, role, hstep, hmode, hescaping, hrole⟩ :=
      exists_step_ansi (p := p) (inner ++ behind) ansi (Ne.symm unquoted.1)
    obtain ⟨t, hmode', hescaping', hpasses⟩ := ih hmode unquoted.2
    exact ⟨t, hmode', by rw [hescaping', hescaping]; rfl,
      .cons hstep (fun h ↦ absurd h hrole) (by rw [hmode]; rfl) hpasses⟩

/-- Between double quotes a unit is quoted. -/
theorem exists_passes_unit {u : CharUnit} (behind : List Char) (escape : p.escape = '\\')
    (double : s.mode = .double) (ready : s.escaping = false)
    (dollar : s.last ≠ some ('$', .quoted)) (quotable : u.isQuotable = true) :
    ∃ t, t.mode = .double ∧ t.escaping = false ∧ t.last ≠ some ('$', .quoted) ∧
      Passes p behind s u.chars (u.chars.map (·, some '"')) t := by
  cases u with
  | plain c =>
    simp only [CharUnit.isQuotable, decide_eq_true_eq, List.mem_cons, not_or] at quotable
    have hstep : s.step p c behind = _ := step_double behind double ready
      (escape ▸ quotable.2.1) quotable.1 (fun h ↦ dollar h.2)
    set t : Nesting := { s with
      line := if c = '\n' then s.line + 1 else s.line, last := some (c, .quoted) }
    have hmode : t.mode = .double := double
    exact ⟨t, hmode, ready, fun h ↦ quotable.2.2.1 (Prod.mk.inj (Option.some.inj h)).1,
      .singleton hstep (by simp) (by rw [hmode]; rfl)⟩
  | escaped c =>
    have hstep : s.step p '\\' (c :: behind) = _ := step_doubleEscape _ double ready escape
    set r : Nesting := { s with escaping := true, last := some ('\\', .escape) }
    have hliteral : r.step p c behind = _ := step_of_escaping c behind rfl
    set t : Nesting := { r with
      escaping := false
      line := if c = '\n' then r.line + 1 else r.line
      last := some (c, .escaped) }
    have hmode : r.mode = .double ∧ t.mode = .double := ⟨double, double⟩
    exact ⟨t, hmode.2, rfl, fun h ↦ by simp [t] at h,
      .cons hstep (by simp) (by rw [hmode.1]; rfl)
        (.singleton hliteral (by simp) (by rw [hmode.2]; rfl))⟩

theorem exists_passes_double {units : List CharUnit} (behind : List Char)
    (escape : p.escape = '\\') (double : s.mode = .double) (ready : s.escaping = false)
    (dollar : s.last ≠ some ('$', .quoted)) (quotable : ∀ u ∈ units, u.isQuotable = true) :
    ∃ t, t.mode = .double ∧ t.escaping = false ∧
      Passes p behind s (unitText units) ((unitText units).map (·, some '"')) t := by
  induction units generalizing s with
  | nil => exact ⟨s, double, ready, .nil s⟩
  | cons u units ih =>
    rw [List.forall_mem_cons] at quotable
    obtain ⟨r, hmode, hready, hlast, hunit⟩ :=
      exists_passes_unit (unitText units ++ behind) escape double ready dollar quotable.1
    obtain ⟨t, hmode', hready', hunits⟩ := ih hmode hready hlast quotable.2
    refine ⟨t, hmode', hready', ?_⟩
    rw [unitText_cons, List.map_append]
    exact hunit.append hunits

/-! ### Parts of a word -/

section Parts

variable {d : Dialect}

/-- A quote in code opens quotes, and behind a dollar sign a single quote opens an ANSI-C quote. -/
theorem exists_step_openQuote {q : Char} (rest : List Char) (docs : d.profile.hereDocs = true)
    (code : s.mode = .code) (ready : s.escaping = false) (hq : q = '\'' ∨ q = '"') :
    ∃ t, s.step d.profile q rest = (t, .quoteDelim) ∧
      t.mode = (if q = '"' then .double
        else if d.profile.ansiQuotes ∧ s.lastChar? = some '$' then .ansi else .single) ∧
      t.escaping = false ∧ t.last = some (q, .quoteDelim) := by
  obtain ⟨hescape, -, hstrings, -⟩ := Dialect.of_hereDocs docs
  rcases hq with rfl | rfl <;> simp [step, react, inCode, enter, code, ready, hescape, hstrings]

/-- The quote that opened quotes closes them. -/
theorem step_closeQuote {q : Char} (rest : List Char) (escape : p.escape = '\\')
    (ready : s.escaping = false) (inside : s.mode.quote? = some q) :
    s.step p q rest = ({ s with mode := .code, last := some (q, .quoteDelim) }, .quoteDelim) := by
  cases hmode : s.mode <;> rw [hmode] at inside <;> simp only [Mode.quote?, Option.some.injEq,
    reduceCtorEq] at inside <;> subst inside <;>
    simp [step, react, inQuotes, inDoubleQuotes, hmode, ready, escape]

/-- A quoted part, from its inside. -/
theorem exists_passes_quoted {q : Char} {inner behind : List Char} {r : Nesting}
    (escape : p.escape = '\\') (hopen : s.step p q (inner ++ [q] ++ behind) = (r, .quoteDelim))
    (hinside : r.mode.quote? = some q)
    (hinner : Passes p (q :: behind) r inner (inner.map (·, some q)) t)
    (hquote : t.mode.quote? = some q) (ready : t.escaping = false) :
    ∃ u, u.mode = .code ∧ u.escaping = false ∧ u.lastChar? = some q ∧
      Passes p behind s (q :: (inner ++ [q])) (WordPart.quotedPlaces q inner) u :=
  ⟨{ t with mode := .code, last := some (q, .quoteDelim) }, rfl, ready, rfl,
    .cons hopen (by simp) hinside
      (hinner.append (.singleton (step_closeQuote behind escape ready hquote) (by simp) rfl))⟩

/-- A unit outside quotes. -/
theorem exists_passes_bare {v : CharUnit} (behind : List Char) (docs : d.profile.hereDocs = true)
    (code : s.mode = .code) (ready : s.escaping = false)
    (written : (WordPart.bare v).isWritten = true) :
    ∃ t, t.mode = .code ∧ t.escaping = false ∧ t.lastChar? = some v.char ∧
      Passes d.profile behind s v.chars (v.chars.map (·, none)) t := by
  cases v with
  | plain c =>
    have ordinary := isOrdinary_of_isWordChar written
    have hword := HereDoc.endsWord_of_isOrdinary ordinary
    have hstep : s.step d.profile c behind = _ := step_plain behind code ready
      (Profile.isBare_iff.1 (d.isBare_of_isOrdinary ordinary)).1
    set t : Nesting := { s with last := some (c, .code) }
    have hmode : t.mode = .code := code
    exact ⟨t, hmode, ready, rfl, .singleton hstep (fun _ ↦ hword) (by rw [hmode]; rfl)⟩
  | escaped c =>
    obtain ⟨hescape, -⟩ := Dialect.of_hereDocs docs
    have hstep : s.step d.profile '\\' (c :: behind) =
        ({ s with escaping := true, last := some ('\\', .escape) }, .escape) := by
      simp [step, react, inCode, code, ready, hescape]
    set r : Nesting := { s with escaping := true, last := some ('\\', .escape) }
    have hliteral : r.step d.profile c behind = _ := step_of_escaping c behind rfl
    set t : Nesting := { r with
      escaping := false
      line := if c = '\n' then r.line + 1 else r.line
      last := some (c, .escaped) }
    have hmode : r.mode = .code ∧ t.mode = .code := ⟨code, code⟩
    exact ⟨t, hmode.2, rfl, rfl, .cons hstep (by simp) (by rw [hmode.1]; rfl)
      (.singleton hliteral (by simp) (by rw [hmode.2]; rfl))⟩

/-- A part of a word is read as it is meant, unless it is a text between single quotes that code
takes for an ANSI-C quote and whose closing quote it takes for escaped. -/
theorem exists_passes_part {part : WordPart} (behind : List Char) (docs : d.profile.hereDocs = true)
    (code : s.mode = .code) (ready : s.escaping = false) (written : part.isWritten = true)
    (straight : d.profile.ansiQuotes = true → s.lastChar? = some '$' →
      ∀ inner, part = .single inner → escapesNext inner = false) :
    ∃ t, t.mode = .code ∧ t.escaping = false ∧
      (t.lastChar? = some '$' ↔ part = .bare (.escaped '$')) ∧
      Passes d.profile behind s part.text part.places t := by
  obtain ⟨hescape, -⟩ := Dialect.of_hereDocs docs
  cases part with
  | bare v =>
    obtain ⟨t, hmode, hready, hlast, hpasses⟩ := exists_passes_bare behind docs code ready written
    refine ⟨t, hmode, hready, ?_, hpasses⟩
    rw [hlast]
    cases v with
    | plain c =>
      refine iff_of_false (fun h ↦ ?_) (by simp)
      obtain rfl : c = '$' := Option.some.inj h
      exact absurd written (by decide)
    | escaped c => simp [CharUnit.char]
  | single inner =>
    have unquoted := (WordPart.isWritten_single.1 written).1
    obtain ⟨r, hopen, hmode, hready, -⟩ :=
      exists_step_openQuote (inner ++ ['\''] ++ behind) docs code ready (.inl rfl)
    rw [if_neg (by decide)] at hmode
    obtain ⟨t, hquotes, hescaping, hinner⟩ : ∃ t, t.mode = r.mode ∧ t.escaping = false ∧
        Passes d.profile ('\'' :: behind) r inner (inner.map (·, some '\'')) t := by
      by_cases ansi : d.profile.ansiQuotes = true ∧ s.lastChar? = some '$'
      · rw [if_pos ansi] at hmode
        obtain ⟨t, hansi, hescaping, hinner⟩ := exists_passes_ansi ('\'' :: behind) hmode unquoted
        rw [hready, straight ansi.1 ansi.2 inner rfl] at hescaping
        exact ⟨t, hansi.trans hmode.symm, hescaping, hinner⟩
      · rw [if_neg ansi] at hmode
        obtain ⟨t, hsingle, hescaping, hinner⟩ :=
          exists_passes_single ('\'' :: behind) hmode hready unquoted
        exact ⟨t, hsingle.trans hmode.symm, hescaping, hinner⟩
    have hquote : r.mode.quote? = some '\'' := by
      rw [hmode]
      split <;> rfl
    obtain ⟨u, hcode, hready', hlast, hpasses⟩ :=
      exists_passes_quoted hescape hopen hquote hinner (by rw [hquotes, hquote]) hescaping
    exact ⟨u, hcode, hready', iff_of_false (by simp [hlast]) (by simp), hpasses⟩
  | double units =>
    obtain ⟨r, hopen, hmode, hready, hlast⟩ :=
      exists_step_openQuote (unitText units ++ ['"'] ++ behind) docs code ready (.inr rfl)
    rw [if_pos rfl] at hmode
    obtain ⟨t, hquotes, hescaping, hinner⟩ := exists_passes_double ('"' :: behind) hescape hmode
      hready (by simp [hlast]) (WordPart.isWritten_double.1 written)
    obtain ⟨u, hcode, hready', hlast, hpasses⟩ := exists_passes_quoted hescape hopen
      (by rw [hmode]; rfl) hinner (by rw [hquotes]; rfl) hescaping
    exact ⟨u, hcode, hready', iff_of_false (by simp [hlast]) (by simp), hpasses⟩

/-- Code takes the closing quote of such a text for escaped, so its quotes stay open. -/
theorem exists_passes_hidden {inner : List Char} (behind : List Char)
    (docs : d.profile.hereDocs = true) (code : s.mode = .code) (ready : s.escaping = false)
    (unquoted : '\'' ∉ inner) (ansi : d.profile.ansiQuotes = true)
    (dollar : s.lastChar? = some '$') (escapes : escapesNext inner = true) :
    ∃ t, Passes d.profile behind s (WordPart.single inner).text
      (('\'', some '\'') :: (inner.map (·, some '\'') ++ [('\'', some '\'')])) t := by
  obtain ⟨r, hopen, hmode, hready, -⟩ :=
    exists_step_openQuote (inner ++ ['\''] ++ behind) docs code ready (.inl rfl)
  rw [if_neg (by decide), if_pos ⟨ansi, dollar⟩] at hmode
  obtain ⟨t, hansi, hescaping, hinner⟩ := exists_passes_ansi ('\'' :: behind) hmode unquoted
  rw [hready, escapes] at hescaping
  exact ⟨_, .cons hopen (by simp) (by rw [hmode]; rfl)
    (hinner.append (.singleton (step_of_escaping '\'' behind hescaping) (by simp)
      (congrArg Mode.quote? hansi)))⟩

/-! ### The whole word -/

/-- Code reads a word as it is meant exactly if it takes no closing quote for escaped. The word may
stand behind a dollar sign that is escaped. -/
theorem placesFrom_word_iff {parts : List WordPart} {e : Char} (offset : Nat) (rest : List Char)
    (docs : d.profile.hereDocs = true) (code : s.mode = .code) (ready : s.escaping = false)
    (ends : isSpace e = true) (written : ∀ part ∈ parts, part.isWritten = true) :
    placesFrom d.profile s offset (wordText parts ++ e :: rest) = wordPlaces parts ↔
      ¬ (d.profile.ansiQuotes = true ∧ (HidesQuote parts ∨ s.lastChar? = some '$' ∧
        ∃ inner, escapesNext inner = true ∧ parts.head? = some (.single inner))) := by
  induction parts generalizing s offset with
  | nil =>
    refine iff_of_true (placesFrom_blank offset rest code ready ends) ?_
    rintro ⟨-, ⟨inner, -, hinner⟩ | ⟨-, inner, -, hinner⟩⟩
    · simp at hinner
    · simp at hinner
  | cons part parts ih =>
    rw [List.forall_mem_cons] at written
    rw [wordText, List.flatMap_cons, List.append_assoc, wordPlaces, List.flatMap_cons]
    by_cases hidden : d.profile.ansiQuotes = true ∧ s.lastChar? = some '$' ∧
        ∃ inner, escapesNext inner = true ∧ part = .single inner
    · obtain ⟨ansi, dollar, inner, escapes, rfl⟩ := hidden
      obtain ⟨t, hpasses⟩ := exists_passes_hidden (wordText parts ++ e :: rest) docs code ready
        (WordPart.isWritten_single.1 written.1).1 ansi dollar escapes
      obtain ⟨offset', hplaces⟩ := hpasses.placesFrom_append offset
      refine iff_of_false (fun heq ↦ ?_) (not_not.2 ⟨ansi, .inr ⟨dollar, inner, escapes, rfl⟩⟩)
      have hclose := hplaces.symm.trans heq
      simp [WordPart.places, WordPart.quotedPlaces] at hclose
    · obtain ⟨t, hmode, hready, hlast, hpasses⟩ :=
        exists_passes_part (wordText parts ++ e :: rest) docs code ready written.1
          fun ansi dollar inner hinner ↦ by
            by_contra escapes
            exact hidden ⟨ansi, dollar, inner, by simpa using escapes, hinner⟩
      obtain ⟨offset', hplaces⟩ := hpasses.placesFrom_append offset
      refine (Eq.congr_left hplaces).trans ?_
      rw [List.append_cancel_left_eq]
      refine (ih offset' hmode hready written.2).trans (not_congr (and_congr_right fun ansi ↦ ?_))
      -- No quote is hidden in front of this part, so one is hidden behind it if anywhere.
      have hfront : ¬ (s.lastChar? = some '$' ∧
          ∃ inner, escapesNext inner = true ∧ (part :: parts).head? = some (.single inner)) := by
        rintro ⟨dollar, inner, escapes, hpart⟩
        exact hidden ⟨ansi, dollar, inner, escapes, Option.some.inj hpart⟩
      rw [hidesQuote_cons, or_iff_left hfront, hlast, or_comm]

/-- The state behind an operator that announces a document is ready to read the word as code. -/
theorem afterText_announcement {marker blanks : List Char} (ahead : List Char)
    (docs : d.profile.hereDocs = true) (code : s.mode = .code) (ready : s.escaping = false)
    (hmarker : marker = [] ∨ marker = ['-']) (hblanks : ∀ c ∈ blanks, isIndent c = true) :
    let t := s.afterText d.profile ('<' :: '<' :: (marker ++ blanks)) ahead
    t.mode = .code ∧ t.escaping = false ∧ t.lastChar? ≠ some '$' := by
  have hindent : ∀ c ∈ marker ++ blanks, c = '-' ∨ isIndent c = true := by
    intro c hc
    rcases List.mem_append.1 hc with hc | hc
    · rcases hmarker with rfl | rfl
      · exact absurd hc List.not_mem_nil
      · exact .inl (List.mem_singleton.1 hc)
    · exact .inr (hblanks c hc)
  intro t
  set r := (s.step d.profile '<' ('<' :: (marker ++ blanks) ++ ahead)).1 with hr
  have ht : t = r.afterText d.profile ('<' :: (marker ++ blanks)) ahead := afterText_cons ..
  obtain ⟨hcode, hready⟩ : r.mode = .code ∧ r.escaping = false := by
    simp only [hr, step, react_angle _ code ready docs, announceHereDoc]
    split
    · exact ⟨code, ready⟩
    · split
      · exact ⟨code, ready⟩
      · split <;> exact ⟨code, ready⟩
  rw [ht]
  exact afterText_operator docs hcode hready rfl hindent ahead

/-- The document that a step queues waits for the word behind its operator. -/
theorem delimiter_of_accepted {marker blanks word : List Char} {doc : HereDoc}
    (hmarker : marker = [] ∨ marker = ['-']) (hblanks : ∀ c ∈ blanks, isIndent c = true)
    (hword : ∃ c rest, word = c :: rest ∧ isIndent c = false ∧ c ≠ '<' ∧ c ≠ '-')
    (accepted : (s.step p '<' ('<' :: (marker ++ blanks ++ word))).1.hereDocs =
      s.hereDocs ++ [doc]) :
    doc.delimiter = HereDoc.delimiterFrom none word := by
  obtain ⟨first, letters, rfl, hfirst, hbar, htabs⟩ := hword
  have hdrop : (blanks ++ first :: letters).dropWhile isIndent = first :: letters := by
    rw [List.dropWhile_append_of_pos hblanks, List.dropWhile_cons_of_neg (by simp [hfirst])]
  have hawait {tabs : Bool}
      (h : HereDoc.await? tabs s.line (blanks ++ first :: letters) = some doc) :
      doc.delimiter = HereDoc.delimiterFrom none (first :: letters) := by
    rw [HereDoc.delimiter_of_await? h, hdrop]
  have hannounced := announced?_of_hereDocs_step accepted
  rcases hmarker with rfl | rfl
  · have hhead {c : Char} (hc : isIndent c = false) (hne : first ≠ c) :
        (blanks ++ first :: letters).head? ≠ some c := by
      cases blanks with
      | nil => simpa using hne
      | cons blank blanks =>
        rintro ⟨⟩
        exact absurd (hblanks _ List.mem_cons_self) (by simp [hc])
    rw [List.nil_append, HereDoc.announced?_of_head_ne (hhead (by decide) hbar)
      (hhead (by decide) htabs)] at hannounced
    exact hawait hannounced
  · exact hawait hannounced

/-- The delimiter of a queued document is what is kept of a stretch behind the operator. It is the
value of the word there, and the stretch is the word of code with the same characters inside quotes,
exactly if nothing is escaped between double quotes in the word and no quote of it is hidden behind
an escaped dollar sign. -/
theorem delimiter_agrees_iff {marker blanks rest : List Char} {parts : List WordPart} {e : Char}
    {doc : HereDoc} (offset : Nat) (docs : d.profile.hereDocs = true) (code : s.mode = .code)
    (ready : s.escaping = false) (hmarker : marker = [] ∨ marker = ['-'])
    (hblanks : ∀ c ∈ blanks, isIndent c = true) (full : parts ≠ [])
    (written : ∀ part ∈ parts, part.isWritten = true) (ends : isSpace e = true)
    (accepted : (s.step d.profile '<'
      ('<' :: (marker ++ blanks ++ (wordText parts ++ e :: rest)))).1.hereDocs =
        s.hereDocs ++ [doc]) :
    let text := wordText parts ++ e :: rest
    let ahead := HereDoc.readFrom none text
    let inCode := (s.afterText d.profile ('<' :: '<' :: (marker ++ blanks)) text).placesFrom
      d.profile offset text
    (doc.delimiter = (ahead.filter HereDoc.ReadChar.kept).map HereDoc.ReadChar.char ∧
        ahead.map HereDoc.ReadChar.char <+: text) ∧
      (doc.delimiter = wordValue parts ∧ ahead.map HereDoc.ReadChar.quotedPlace = inCode ↔
        (∀ part ∈ parts, part.isVerbatim = true) ∧
          ¬ (d.profile.ansiQuotes = true ∧ HidesQuote parts)) ∧
      (¬ (d.profile.ansiQuotes = true ∧ HidesQuote parts) →
        inCode.map Prod.fst = wordText parts) := by
  intro text ahead inCode
  have hword : ∃ c rest, text = c :: rest ∧ isIndent c = false ∧ c ≠ '<' ∧ c ≠ '-' := by
    obtain ⟨part, others, rfl⟩ := List.exists_cons_of_ne_nil full
    obtain ⟨c, more, htext, hc⟩ :=
      WordPart.exists_text_cons (written part List.mem_cons_self)
    refine ⟨c, more ++ (wordText others ++ e :: rest), ?_, hc⟩
    show wordText (part :: others) ++ e :: rest = _
    rw [wordText, List.flatMap_cons, htext, List.append_assoc, List.cons_append]
    rfl
  have hdelimiter : doc.delimiter = HereDoc.delimiterFrom none text :=
    delimiter_of_accepted hmarker hblanks hword accepted
  have hvalue : doc.delimiter = wordValue parts ↔ ∀ part ∈ parts, part.isVerbatim = true := by
    rw [hdelimiter]
    exact HereDoc.delimiterFrom_eq_value_iff rest ends written
  obtain ⟨hcode, hready, hdollar⟩ := afterText_announcement text docs code ready hmarker hblanks
  have hcodePlaces : inCode = wordPlaces parts ↔
      ¬ (d.profile.ansiQuotes = true ∧ HidesQuote parts) := by
    refine (placesFrom_word_iff offset rest docs hcode hready ends written).trans ?_
    rw [or_iff_left fun h ↦ hdollar h.1]
  refine ⟨⟨hdelimiter.trans (HereDoc.delimiterFrom_eq_kept none text),
    HereDoc.readFrom_prefix none text⟩, ?_, ?_⟩
  · rw [hvalue]
    refine and_congr_right fun verbatim ↦ ?_
    have hahead : ahead.map HereDoc.ReadChar.quotedPlace = wordPlaces parts :=
      HereDoc.map_quotedPlace_readFrom_word rest ends written verbatim
    rw [hahead, eq_comm]
    exact hcodePlaces
  · intro straight
    rw [hcodePlaces.2 straight, map_fst_wordPlaces]

/-- Three words. In the first the backslash between double quotes escapes nothing and the quotes
behind the dollar sign are not next to it. In the second an escaped quote makes the look-ahead run
on, and in the third code does not find the closing quote. -/
theorem delimiter_agrees_iff_of_words :
    let agrees (delimiter : List Char) (parts : List WordPart) :=
      let text := wordText parts ++ ['\n']
      delimiter = wordValue parts ∧
        (HereDoc.readFrom none text).map HereDoc.ReadChar.quotedPlace =
          ((start 1).afterText Dialect.bash.profile ['<', '<'] text).placesFrom
            Dialect.bash.profile 2 text
    agrees "\\E x$\\".toList
        [.double [.escaped 'E'], .single [' '], .bare (.plain 'x'), .bare (.escaped '$'),
          .double [], .single ['\\']] ∧
      ¬ agrees "\\E\n".toList [.double [.escaped '"', .plain 'E']] ∧
      ¬ agrees "$\\".toList [.bare (.escaped '$'), .single ['\\']] := by
  intro agrees
  have hiff (parts : List WordPart) (doc : HereDoc) (full : parts ≠ [])
      (written : ∀ part ∈ parts, part.isWritten = true)
      (accepted : ((start 1).step Dialect.bash.profile '<'
        ('<' :: ([] ++ [] ++ (wordText parts ++ ['\n'])))).1.hereDocs = [doc]) :
      agrees doc.delimiter parts ↔
        (∀ part ∈ parts, part.isVerbatim = true) ∧ ¬ (true = true ∧ HidesQuote parts) :=
    (delimiter_agrees_iff (d := .bash) (s := start 1) (e := '\n') 2 rfl rfl rfl
      (.inl (Eq.refl [])) (List.forall_mem_nil _) full written (by decide) accepted).2.1
  refine ⟨?_, fun h ↦ ?_, fun h ↦ ?_⟩
  · refine (hiff _ ⟨"\\E x$\\".toList, false, 1⟩ (by simp) (by decide +kernel)
      (by decide +kernel)).2 ⟨by decide, ?_⟩
    rintro ⟨-, inner, escapes, hinfix⟩
    simp [List.infix_cons_iff] at hinfix
  · have hverbatim := ((hiff _ ⟨"\\E\n".toList, false, 1⟩ (by simp) (by decide +kernel)
      (by decide +kernel)).1 h).1
    exact absurd hverbatim (by decide)
  · have hstraight := ((hiff _ ⟨"$\\".toList, false, 1⟩ (by simp) (by decide +kernel)
      (by decide +kernel)).1 h).2
    exact hstraight ⟨rfl, ['\\'], by decide, List.infix_rfl⟩

end Parts

end Nesting

end ShellCatalog
