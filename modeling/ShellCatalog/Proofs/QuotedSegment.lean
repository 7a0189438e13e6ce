import Mathlib.Data.List.Chain
import ShellCatalog.Proofs.AliasRoundTrip
import ShellCatalog.Proofs.LookBehind
import ShellCatalog.Proofs.StatementTiling

/-!
# The words that lose their quotes

Whether a word is one quoted segment is judged by where its quote delimits outside every group: how
often, where first and last, and in which pairs. **The words found that way are the words that are
one segment** (`unquote_ne_iff`): a quote opens in front, the same quote closes at the end, and
between them code is met outside every group nowhere, except between two quotes that are written
next to each other where such a pair stands for a quote.

What carries the proof is `Nesting.InSegment`: behind the quote that opens, reading stays between
quotes or in a group that interrupts them, until the quote closes outside every group. Which
character comes next then decides whether there is one segment.
-/

namespace ShellCatalog

/-- The mark closes a quote outside every group. -/
structure Mark.ClosesTopQuote (m : Mark) : Prop where
  delimits : m.role = .quoteDelim
  quoted : m.before.mode ≠ .code
  closes : m.after.mode = .code
  outside : m.depth = 0

/-- Code is met outside every group between the marks `m` and `n` only if both are the quote, where
a quote may be written twice. -/
def Mark.PairsUp (p : Profile) (quote : Char) (m n : Mark) : Prop :=
  m.after.mode = .code → m.depth = 0 → p.doubledQuotes = true ∧ m.char = quote ∧ n.char = quote

instance (p : Profile) (quote : Char) : DecidableRel (Mark.PairsUp p quote) := fun m n ↦
  inferInstanceAs (Decidable (m.after.mode = .code → m.depth = 0 →
    p.doubledQuotes = true ∧ m.char = quote ∧ n.char = quote))

/-- The word is one segment between two of `quote`, with `lead` in front and `inside` between
them. -/
structure IsSegment (p : Profile) (word lead : List Char) (quote : Char) (inside : List Char) :
    Prop where
  shape : word = lead ++ quote :: (inside ++ [quote])
  quotes : quote = '\'' ∨ quote = '"'
  /-- Only an ANSI-C quote has something in front of it. -/
  leads : lead = [] ∨ lead = ['$'] ∧ quote = '\'' ∧ p.ansiQuotes = true
  /-- The first quote opens. -/
  opens : ∃ m ∈ (marks p word)[lead.length]?, m.role = .quoteDelim ∧ m.before.mode = .code
  /-- The last quote closes. -/
  closes : ∃ m ∈ (marks p word).getLast?, m.ClosesTopQuote
  between : ((marks p word).drop lead.length).IsChain (Mark.PairsUp p quote)

namespace Nesting

/-- Reading stands in a segment that `quote` opened: between its quotes, or in groups of which the
outermost interrupts them. -/
inductive InSegment (quote : Char) (s : Nesting) : Prop
  | single : s.groups = [] → quote = '\'' → s.mode = .single ∨ s.mode = .ansi → InSegment quote s
  | double : s.groups = [] → quote = '"' → s.mode = .double → InSegment quote s
  | interrupted (g : Group) : quote = '"' → s.groups.getLast? = some g →
      g.quoteLine.isSome = true → InSegment quote s

/-- Reading stands right behind a segment that `quote` closed. -/
structure BehindSegment (quote : Char) (s : Nesting) : Prop where
  code : s.mode = .code
  outside : s.groups = []
  ready : s.escaping = false
  last : s.last = some (quote, .quoteDelim)

section Segment

variable {quote : Char} {s : Nesting}

/-- Inside a segment there is no code outside every group. -/
theorem InSegment.not_top (inside : InSegment quote s) : ¬(s.mode = .code ∧ s.groups = []) := by
  rintro ⟨hcode, houtside⟩
  cases inside with
  | single _ _ hmode => simp [hcode] at hmode
  | double _ _ hmode => simp [hcode] at hmode
  | interrupted g _ houter => simp [houtside] at houter

/-- A step is what the character leads to in its mode, with the line and the last character brought
up to date. -/
theorem step_of_react {p : Profile} {c : Char} {rest : List Char} {t : Nesting} {role : CharRole}
    (h : s.react p c rest = (t, role)) :
    s.step p c rest =
      ({ t with line := if c = '\n' then s.line + 1 else s.line, last := some (c, role) },
        role) := by
  rw [Nesting.step, h]

/-- Where a segment is read up to its quote, the quote closes it, and every other character goes on
inside it. -/
theorem InSegment.step_of_inQuotes {p : Profile} {c : Char} {rest : List Char}
    {escape : Option Char} (outside : s.groups = []) (ready : s.escaping = false)
    (quoted : s.mode ≠ .code)
    (stays : ∀ t : Nesting, t.groups = s.groups → t.mode = s.mode → InSegment quote t)
    (hreact : s.react p c rest = inQuotes escape quote s c) :
    (c = quote ∧ (s.step p c rest).2 = .quoteDelim ∧ s.mode ≠ .code ∧
        BehindSegment quote (s.step p c rest).1) ∨
      InSegment quote (s.step p c rest).1 ∧
        ((s.step p c rest).1.groups = [] → (s.step p c rest).2 ≠ .quoteDelim) := by
  by_cases hescape : some c = escape
  · rw [inQuotes, if_pos hescape] at hreact
    rw [step_of_react hreact]
    exact .inr ⟨stays _ rfl rfl, by simp⟩
  rw [inQuotes, if_neg hescape] at hreact
  by_cases hc : c = quote
  · rw [if_pos hc] at hreact
    rw [step_of_react hreact]
    exact .inl ⟨hc, rfl, quoted, rfl, outside, ready, by rw [hc]⟩
  · rw [if_neg hc] at hreact
    rw [step_of_react hreact]
    exact .inr ⟨stays _ rfl rfl, by simp⟩

/-- A step inside a segment goes on inside it, or its quote closes it outside every group. -/
theorem InSegment.step (inside : InSegment quote s) (p : Profile) (c : Char) (rest : List Char) :
    (c = quote ∧ (s.step p c rest).2 = .quoteDelim ∧ s.mode ≠ .code ∧
        BehindSegment quote (s.step p c rest).1) ∨
      InSegment quote (s.step p c rest).1 ∧
        ((s.step p c rest).1.groups = [] → (s.step p c rest).2 ≠ .quoteDelim) := by
  by_cases hescaping : s.escaping = true
  · rw [step_of_escaping c rest hescaping]
    refine .inr ⟨?_, by simp⟩
    cases inside with
    | single houtside hquote hmode => exact .single houtside hquote hmode
    | double houtside hquote hmode => exact .double houtside hquote hmode
    | interrupted g hquote houter hline => exact .interrupted g hquote houter hline
  have ready : s.escaping = false := by simpa using hescaping
  cases inside with
  | single houtside hquote hmode =>
    subst hquote
    obtain ⟨escape, hreact⟩ : ∃ escape, s.react p c rest = inQuotes escape '\'' s c := by
      rcases hmode with hmode | hmode
      · exact ⟨none, by simp [react, ready, hmode]⟩
      · exact ⟨some '\\', by simp [react, ready, hmode]⟩
    have hcode : s.mode ≠ .code := by rcases hmode with h | h <;> simp [h]
    exact step_of_inQuotes houtside ready hcode
      (fun t hgroups hsame ↦ .single (hgroups.trans houtside) rfl (hsame ▸ hmode)) hreact
  | double houtside hquote hmode =>
    subst hquote
    have hreact : s.react p c rest = inDoubleQuotes p s c := by simp [react, ready, hmode]
    by_cases hescape : c = p.escape
    · rw [inDoubleQuotes, if_pos hescape] at hreact
      rw [step_of_react hreact]
      exact .inr ⟨.double houtside rfl hmode, by simp⟩
    by_cases hinterrupts : c = '(' ∧ s.last = some ('$', .quoted)
    · rw [inDoubleQuotes, if_neg hescape, if_pos hinterrupts] at hreact
      rw [step_of_react hreact]
      exact .inr ⟨.interrupted ⟨.paren, s.line, some s.openedOn⟩ rfl (by simp [houtside]) rfl,
        by simp⟩
    rw [inDoubleQuotes, if_neg hescape, if_neg hinterrupts] at hreact
    exact step_of_inQuotes houtside ready (by simp [hmode])
      (fun t hgroups hsame ↦ .double (hgroups.trans houtside) rfl (hsame.trans hmode)) hreact
  | interrupted g hquote houter hline =>
    subst hquote
    rcases getLast?_groups_step p c rest houter with hopen | ⟨-, hgroups, hrole, -, hquote⟩
    · exact .inr ⟨.interrupted g rfl hopen hline, fun h ↦ by simp [h] at hopen⟩
    · obtain ⟨line, hsome⟩ := Option.isSome_iff_exists.1 hline
      exact .inr ⟨.double hgroups rfl (hquote line hsome).1, by simp [hrole]⟩

/-- A quote in code opens a segment, unless it opens a here-string. -/
theorem inSegment_step_quote {d : Dialect} (rest : List Char) (hquote : quote = '\'' ∨ quote = '"')
    (code : s.mode = .code) (outside : s.groups = []) (ready : s.escaping = false)
    (last : s.lastChar? ≠ some '@') :
    InSegment quote (s.step d.profile quote rest).1 ∧
      (s.step d.profile quote rest).2 = .quoteDelim ∧
      (s.step d.profile quote rest).1.groups = [] := by
  obtain ⟨hrole, hmode, -⟩ := step_quote (d := d) rest code ready hquote
  have hgroups : (s.step d.profile quote rest).1.groups = [] :=
    groups_step_of_ne rest outside (by rcases hquote with rfl | rfl <;> decide)
  rw [if_neg fun h ↦ last h.2] at hmode
  refine ⟨?_, hrole, hgroups⟩
  rcases hquote with rfl | rfl
  · refine .single hgroups rfl ?_
    rw [hmode, if_pos rfl]
    split
    · exact .inr rfl
    · exact .inl rfl
  · exact .double hgroups rfl (by simpa using hmode)

end Segment

end Nesting

/-! ### Where a quote delimits -/

/-- The offsets reach up to `stop`, and those in front of the last pair up where a quote may be
written twice. -/
def EndsPaired (p : Profile) (stop : Nat) (offsets : List Nat) : Prop :=
  (∃ last ∈ offsets.getLast?, last + 1 = stop) ∧
    (offsets.dropLast = [] ∨ p.doubledQuotes = true ∧ pairedUp offsets.dropLast = true)

section Offsets

variable {p : Profile} {stop i : Nat} {offsets : List Nat}

theorem endsPaired_singleton : EndsPaired p stop [i] ↔ i + 1 = stop := by
  simp [EndsPaired]

theorem not_endsPaired_nil : ¬EndsPaired p stop [] := by
  simp [EndsPaired]

/-- A pair in front does not matter where pairs are allowed. -/
theorem endsPaired_pair (doubled : p.doubledQuotes = true) :
    EndsPaired p stop (i :: (i + 1) :: offsets) ↔ EndsPaired p stop offsets := by
  cases offsets with
  | nil => simp [EndsPaired, pairedUp]
  | cons j offsets =>
    rw [EndsPaired, EndsPaired, List.getLast?_cons_cons, List.getLast?_cons_cons,
      List.dropLast_cons_cons, List.dropLast_cons_cons]
    refine and_congr_right fun _ ↦ ?_
    cases hinner : (j :: offsets).dropLast <;> simp [pairedUp, doubled]

/-- An offset in front of the end that has no neighbour is not paired. -/
theorem not_endsPaired_cons (short : i + 1 < stop)
    (alone : p.doubledQuotes = true → i + 1 ∉ offsets) : ¬EndsPaired p stop (i :: offsets) := by
  rintro ⟨⟨last, hlast, hstop⟩, hpairs⟩
  cases offsets with
  | nil =>
    obtain rfl : i = last := by simpa using hlast
    omega
  | cons j offsets =>
    rw [List.dropLast_cons_cons] at hpairs
    obtain ⟨hdoubled, hpaired⟩ := hpairs.resolve_left (List.cons_ne_nil _ _)
    cases offsets with
    | nil => simp [pairedUp] at hpaired
    | cons k offsets =>
      rw [List.dropLast_cons_cons, pairedUp, Bool.and_eq_true, decide_eq_true_eq] at hpaired
      exact alone hdoubled (hpaired.1 ▸ List.mem_cons_self)

end Offsets

theorem quoteOffsets_cons (quote : Char) (m : Mark) (ms : List Mark) :
    quoteOffsets quote (m :: ms) =
      if m.role = .quoteDelim ∧ m.depth = 0 ∧ m.char = quote then
        m.offset :: quoteOffsets quote ms
      else quoteOffsets quote ms := by
  rw [quoteOffsets, List.filter_cons, quoteOffsets]
  by_cases h : m.role = .quoteDelim ∧ m.depth = 0 ∧ m.char = quote
  · rw [if_pos h, if_pos (by simpa [and_assoc] using h), List.map_cons]
  · rw [if_neg h, if_neg (by simpa [and_assoc] using h)]

theorem le_of_mem_quoteOffsets {p : Profile} {quote : Char} {s : Nesting} {offset i : Nat}
    {text : List Char} (h : i ∈ quoteOffsets quote (marksFrom p s offset text)) : offset ≤ i := by
  obtain ⟨m, hm, rfl⟩ := List.mem_map.1 h
  exact offset_le_of_mem_marksFrom (List.mem_of_mem_filter hm)

/-! ### One segment -/

section Reading

variable {d : Dialect} {quote : Char}

/-- The marks pair up and the last one closes a quote. -/
def IsClosed (p : Profile) (quote : Char) (ms : List Mark) : Prop :=
  ms.IsChain (Mark.PairsUp p quote) ∧ ∃ m ∈ ms.getLast?, m.ClosesTopQuote

/-- A mark that is followed by others takes part in their end only by what follows it. -/
theorem isClosed_cons {p : Profile} {m : Mark} {ms : List Mark}
    (last : ms = [] → ¬m.ClosesTopQuote) :
    IsClosed p quote (m :: ms) ↔ (∀ n ∈ ms.head?, m.PairsUp p quote n) ∧ IsClosed p quote ms := by
  rw [IsClosed, IsClosed, List.isChain_cons, and_assoc]
  refine and_congr_right fun _ ↦ and_congr_right fun _ ↦ ?_
  cases ms with
  | nil => simpa using last rfl
  | cons n ms => rw [List.getLast?_cons_cons]

/-- A mark that leaves reading inside a segment is no end of it. -/
theorem isClosed_cons_inSegment {p : Profile} {m : Mark} {ms : List Mark}
    (inside : Nesting.InSegment quote m.after) :
    IsClosed p quote (m :: ms) ↔ IsClosed p quote ms := by
  have hopen : ¬(m.after.mode = .code ∧ m.depth = 0) :=
    fun h ↦ inside.not_top ⟨h.1, List.length_eq_zero_iff.1 h.2⟩
  rw [isClosed_cons fun _ h ↦ hopen ⟨h.closes, h.outside⟩]
  exact and_iff_right fun _ _ hcode houtside ↦ absurd ⟨hcode, houtside⟩ hopen

/-- Where the quote delimits tells whether the segment that is open is the only one. The same is
said of the text behind a quote that closes, together with that quote. -/
theorem isClosed_iff (quotes : quote = '\'' ∨ quote = '"') (text : List Char) :
    (∀ s offset, Nesting.InSegment quote s →
      (IsClosed d.profile quote (marksFrom d.profile s offset text) ↔
        EndsPaired d.profile (offset + byteLength text)
          (quoteOffsets quote (marksFrom d.profile s offset text)))) ∧
    ∀ m : Mark, m.ClosesTopQuote → m.char = quote → Nesting.BehindSegment quote m.after →
      (IsClosed d.profile quote (m :: marksFrom d.profile m.after (m.offset + 1) text) ↔
        EndsPaired d.profile (m.offset + 1 + byteLength text)
          (m.offset :: quoteOffsets quote (marksFrom d.profile m.after (m.offset + 1) text))) := by
  have hsize : quote.utf8Size = 1 := by rcases quotes with rfl | rfl <;> decide
  induction text with
  | nil =>
    refine ⟨fun s offset _ ↦ ?_, fun m hm _ _ ↦ ?_⟩
    · simp [IsClosed, quoteOffsets, not_endsPaired_nil]
    · simpa [IsClosed, quoteOffsets, endsPaired_singleton] using hm
  | cons c rest ih =>
    refine ⟨fun s offset inside ↦ ?_, fun m hm hchar behind ↦ ?_⟩
    · rw [marksFrom_cons, byteLength_cons, ← Nat.add_assoc]
      rcases inside.step d.profile c rest with ⟨rfl, hrole, hmode, hbehind⟩ | ⟨hinside, hrole⟩
      · have hdepth : (s.step d.profile c rest).1.depth = 0 :=
          List.length_eq_zero_iff.2 hbehind.outside
        have hclosing := ih.2 ⟨offset, c, (s.step d.profile c rest).2, s,
          (s.step d.profile c rest).1⟩ ⟨hrole, hmode, hbehind.code, hdepth⟩ rfl hbehind
        rw [quoteOffsets_cons, if_pos ⟨hrole, hdepth, rfl⟩, hsize]
        exact hclosing
      · rw [quoteOffsets_cons, if_neg fun h ↦ hrole (List.length_eq_zero_iff.1 h.2.1) h.1,
          ← ih.1 _ _ hinside, isClosed_cons_inSegment hinside]
    · rw [isClosed_cons (by simp [marksFrom_cons]), byteLength_cons, ← Nat.add_assoc]
      have hpositive := c.utf8Size_pos
      by_cases hpair : d.profile.doubledQuotes = true ∧ c = quote
      · -- The quote opens again: the two of them are a pair.
        obtain ⟨hdoubled, rfl⟩ := hpair
        obtain ⟨hinside, hrole, hgroups⟩ := Nesting.inSegment_step_quote (d := d) rest quotes
          behind.code behind.outside behind.ready
          (by rw [Nesting.lastChar?, behind.last]; rcases quotes with rfl | rfl <;> simp)
        rw [marksFrom_cons, quoteOffsets_cons,
          if_pos ⟨hrole, List.length_eq_zero_iff.2 hgroups, rfl⟩, endsPaired_pair hdoubled,
          ← ih.1 _ _ hinside, isClosed_cons_inSegment hinside]
        refine and_iff_right ?_
        rintro n ⟨⟩ - -
        exact ⟨hdoubled, hchar, rfl⟩
      · refine iff_of_false ?_ (not_endsPaired_cons (by omega) fun hdoubled hmem ↦ ?_)
        · rintro ⟨hhead, -⟩
          have hpairs := hhead _ rfl hm.closes hm.outside
          exact hpair ⟨hpairs.1, hpairs.2.2⟩
        · have hc : c ≠ quote := fun h ↦ hpair ⟨hdoubled, h⟩
          rw [marksFrom_cons, quoteOffsets_cons, if_neg fun h ↦ hc h.2.2] at hmem
          have hbehind := le_of_mem_quoteOffsets hmem
          omega

/-! ### Words -/

variable {lead rest : List Char}

/-- A word begins with a quote, or with a dollar sign and an ANSI-C quote. -/
theorem openingQuote?_eq_some_iff {p : Profile} {word : List Char} {start : Nat} :
    openingQuote? p word = some (start, quote) ↔
      ∃ lead rest, word = lead ++ quote :: rest ∧ lead.length = start ∧
        (quote = '\'' ∨ quote = '"') ∧
        (lead = [] ∨ lead = ['$'] ∧ quote = '\'' ∧ p.ansiQuotes = true) := by
  constructor
  · intro h
    unfold openingQuote? at h
    split at h
    · next rest =>
      split at h
      · next hansi =>
        cases h
        exact ⟨['$'], rest, rfl, rfl, .inl rfl, .inr ⟨rfl, rfl, hansi⟩⟩
      · simp at h
    · next rest =>
      cases h
      exact ⟨[], rest, rfl, rfl, .inl rfl, .inl rfl⟩
    · next rest =>
      cases h
      exact ⟨[], rest, rfl, rfl, .inr rfl, .inl rfl⟩
    · simp at h
  · rintro ⟨lead, rest, rfl, rfl, quotes, rfl | ⟨rfl, rfl, hansi⟩⟩
    · rcases quotes with rfl | rfl <;> rfl
    · simp [openingQuote?, hansi]

/-- The quote that a word begins with opens a segment. -/
theorem exists_opening (quotes : quote = '\'' ∨ quote = '"')
    (leads : lead = [] ∨ lead = ['$'] ∧ quote = '\'' ∧ d.profile.ansiQuotes = true)
    (rest : List Char) :
    ∃ front opening, front.length = lead.length ∧ quoteOffsets quote front = [] ∧
      marks d.profile (lead ++ quote :: rest) =
        front ++ opening :: marksFrom d.profile opening.after (lead.length + 1) rest ∧
      (opening.offset = lead.length ∧ opening.char = quote ∧ opening.role = .quoteDelim ∧
        opening.before.mode = .code ∧ opening.depth = 0) ∧
      Nesting.InSegment quote opening.after := by
  have hsize : quote.utf8Size = 1 := by rcases quotes with rfl | rfl <;> decide
  rcases leads with rfl | ⟨rfl, rfl, -⟩
  · obtain ⟨hinside, hrole, hgroups⟩ := Nesting.inSegment_step_quote (d := d) (s := .start 1) rest
      quotes rfl rfl rfl (by simp [Nesting.start, Nesting.lastChar?])
    refine ⟨[], ⟨0, quote, _, .start 1, _⟩, rfl, rfl, ?_,
      ⟨rfl, rfl, hrole, rfl, List.length_eq_zero_iff.2 hgroups⟩, hinside⟩
    rw [List.nil_append, marks, marksFrom_cons, hsize]
    rfl
  · have hplain : d.profile.isPlain '$' = true := by cases d <;> decide
    obtain ⟨t, ht, hcode, houtside, hready, hlast⟩ : ∃ t : Nesting,
        (Nesting.start 1).step d.profile '$' ('\'' :: rest) = (t, .code) ∧ t.mode = .code ∧
          t.groups = [] ∧ t.escaping = false ∧ t.lastChar? = some '$' :=
      ⟨_, Nesting.step_plain _ rfl rfl hplain, rfl, rfl, rfl, rfl⟩
    obtain ⟨hinside, hrole, hgroups⟩ := Nesting.inSegment_step_quote (d := d) rest quotes hcode
      houtside hready (by simp [hlast])
    refine ⟨[⟨0, '$', .code, .start 1, t⟩], ⟨1, '\'', _, t, _⟩, rfl,
      quoteOffsets_of_forall (by simp), ?_,
      ⟨rfl, rfl, hrole, hcode, List.length_eq_zero_iff.2 hgroups⟩, hinside⟩
    rw [List.singleton_append, marks, marksFrom_cons, ht, marksFrom_cons]
    rfl

/-- Where the quote of a word delimits, the quote that opens left out. -/
theorem isQuotedSegment_iff_endsPaired {p : Profile} {word : List Char} {start : Nat}
    {offsets : List Nat} (nonempty : word ≠ [])
    (hoffsets : quoteOffsets quote (marks p word) = start :: offsets) :
    isQuotedSegment p word start quote = true ↔
      EndsPaired p (byteLength word) offsets ∧ word.getLast? = some quote := by
  have hlength : 0 < byteLength word := by
    obtain ⟨c, rest, rfl⟩ := List.exists_cons_of_ne_nil nonempty
    have hpositive := c.utf8Size_pos
    rw [byteLength_cons]
    omega
  rw [isQuotedSegment, hoffsets]
  cases offsets with
  | nil => simp [not_endsPaired_nil]
  | cons second others =>
    have hstop : (second :: others).getLast? = some (byteLength word - 1) ↔
        ∃ last ∈ (second :: others).getLast?, last + 1 = byteLength word := by
      constructor
      · exact fun h ↦ ⟨_, h, by omega⟩
      · rintro ⟨last, hlast, hstop⟩
        rw [Option.mem_def.1 hlast, ← hstop, Nat.add_sub_cancel]
    simp only [decide_true, Bool.true_and, Bool.and_eq_true, decide_eq_true_eq, hstop, EndsPaired]
    cases (second :: others).dropLast with
    | nil => simp
    | cons inner more =>
      simp only [Bool.and_eq_true, reduceCtorEq, false_or]
      tauto

/-- A word is found to be a quoted segment exactly if it is one segment. -/
theorem isQuotedSegment_iff (quotes : quote = '\'' ∨ quote = '"')
    (leads : lead = [] ∨ lead = ['$'] ∧ quote = '\'' ∧ d.profile.ansiQuotes = true) :
    isQuotedSegment d.profile (lead ++ quote :: rest) lead.length quote = true ↔
      ∃ inside, IsSegment d.profile (lead ++ quote :: rest) lead quote inside := by
  have hsize : quote.utf8Size = 1 := by rcases quotes with rfl | rfl <;> decide
  have hlead : byteLength lead = lead.length := by rcases leads with rfl | ⟨rfl, -⟩ <;> rfl
  obtain ⟨front, opening, hfront, hnone, hmarks, ⟨hoffset, hchar, hrole, hcode, hdepth⟩,
    hinside⟩ := exists_opening quotes leads rest
  set behind := marksFrom d.profile opening.after (lead.length + 1) rest with hbehind
  have hoffsets : quoteOffsets quote (marks d.profile (lead ++ quote :: rest)) =
      lead.length :: quoteOffsets quote behind := by
    rw [hmarks, quoteOffsets_append, hnone, List.nil_append, quoteOffsets_cons,
      if_pos ⟨hrole, hdepth, hchar⟩, hoffset]
  have hstop : byteLength (lead ++ quote :: rest) = lead.length + 1 + byteLength rest := by
    rw [byteLength_append, byteLength_cons, hlead, hsize, Nat.add_assoc]
  have hdrop : (marks d.profile (lead ++ quote :: rest)).drop lead.length = opening :: behind := by
    rw [hmarks, ← hfront, List.drop_left]
  have hlast : (marks d.profile (lead ++ quote :: rest)).getLast? =
      (opening :: behind).getLast? := by
    rw [hmarks, List.getLast?_append_cons]
  rw [isQuotedSegment_iff_endsPaired (by simp) hoffsets, hstop,
    ← (isClosed_iff quotes rest).1 _ _ hinside, ← isClosed_cons_inSegment hinside]
  constructor
  · rintro ⟨⟨hchain, m, hm, hcloses⟩, hend⟩
    have hrest : rest ≠ [] := by
      rintro rfl
      obtain rfl : opening = m := by simpa [hbehind] using hm
      exact hinside.not_top ⟨hcloses.closes, List.length_eq_zero_iff.1 hdepth⟩
    obtain ⟨inside, c, rfl⟩ := (List.eq_nil_or_concat' rest).resolve_left hrest
    obtain rfl : c = quote := by
      rw [← List.cons_append, ← List.append_assoc, List.getLast?_concat] at hend
      exact Option.some_inj.1 hend
    refine ⟨inside, rfl, quotes, leads, ⟨opening, ?_, hrole, hcode⟩, ⟨m, hlast ▸ hm, hcloses⟩,
      hdrop ▸ hchain⟩
    rw [hmarks, ← hfront, List.getElem?_append_right (Nat.le_refl _), Nat.sub_self]
    rfl
  · rintro ⟨inside, h⟩
    refine ⟨⟨hdrop ▸ h.between, hlast ▸ h.closes⟩, ?_⟩
    rw [h.shape, ← List.cons_append, ← List.append_assoc, List.getLast?_concat]

/-- A word loses its quotes exactly if it is one quoted segment, and what is left of it is what
stands between them. -/
theorem unquote_ne_iff (d : Dialect) (word : List Char) :
    (unquote d.profile word ≠ word ↔
      ∃ lead quote inside, IsSegment d.profile word lead quote inside) ∧
    ∀ lead quote inside, IsSegment d.profile word lead quote inside →
      unquote d.profile word = inside := by
  have hsegment {lead quote inside} (h : IsSegment d.profile word lead quote inside) :
      unquote d.profile word = inside := by
    have hopening : openingQuote? d.profile word = some (lead.length, quote) :=
      openingQuote?_eq_some_iff.2 ⟨lead, _, h.shape, rfl, h.quotes, h.leads⟩
    obtain ⟨hshape, hquotes, hleads, -⟩ := id h
    subst hshape
    rw [unquote, hopening]
    dsimp only
    rw [if_pos ((isQuotedSegment_iff hquotes hleads).2 ⟨inside, h⟩), List.drop_append]
    simp
  refine ⟨⟨fun h ↦ ?_, ?_⟩, fun lead quote inside ↦ hsegment⟩
  · rw [unquote] at h
    split at h
    · next start quote hopening =>
      split at h
      · next hquoted =>
        obtain ⟨lead, rest, rfl, rfl, hquotes, hleads⟩ := openingQuote?_eq_some_iff.1 hopening
        exact ⟨lead, quote, (isQuotedSegment_iff hquotes hleads).1 hquoted⟩
      · exact absurd rfl h
    · exact absurd rfl h
  · rintro ⟨lead, quote, inside, h⟩ hsame
    have hlength := congrArg List.length h.shape
    rw [← hsame, hsegment h] at hlength
    simp only [List.length_append, List.length_cons, List.length_nil] at hlength
    omega

end Reading

/-- Two quotes next to each other stand for one, and the word is one segment. -/
theorem unquote_doubled :
    IsSegment Dialect.pwsh.profile "'it''s'".toList [] '\'' "it''s".toList ∧
      unquote Dialect.pwsh.profile "'it''s'".toList = "it''s".toList := by
  have hsegment : IsSegment Dialect.pwsh.profile "'it''s'".toList [] '\'' "it''s".toList :=
    ⟨by decide, .inl rfl, .inl rfl, ⟨_, rfl, by decide, by decide⟩,
      ⟨_, rfl, by decide, by decide, by decide, by decide⟩, by decide⟩
  exact ⟨hsegment, (unquote_ne_iff .pwsh "'it''s'".toList).2 [] '\'' "it''s".toList hsegment⟩

end ShellCatalog
