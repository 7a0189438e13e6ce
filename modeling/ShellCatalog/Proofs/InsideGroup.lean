import ShellCatalog.Proofs.FunctionRoundTrip
import ShellCatalog.Proofs.LaterLines
import ShellCatalog.Proofs.LookBehind

/-!
# Reading inside a group

A text that stands inside groups is read as it is outside, with more groups open all the time.
`Nesting.under` puts further groups outside those of a state, and a step works on the stack from its
inner end, so it does not notice them (`step_under`). Two rules of code look further down.

**A closing bracket** closes the innermost group, and without a group of its own that is the first
of the further groups, if the brackets match (`Mark.ClosesNone`).

**Two parentheses** make arithmetic, in which no document is announced. The further groups may
supply the outer one or both (`Mark.AnnouncesFreely`).

A brace is not closed by a parenthesis and is none. So below a brace only a closing brace has to be
excluded, where the text has no group open (`Mark.IsPaired`).
-/

namespace ShellCatalog

namespace Nesting

variable {p : Profile} {d : Dialect} {outer : List Group} {s : Nesting}

/-- The state with further groups open outside its own. -/
def under (outer : List Group) (s : Nesting) : Nesting :=
  { s with groups := s.groups ++ outer }

theorem lastChar?_under : (s.under outer).lastChar? = s.lastChar? := rfl

theorem wordMayStart_under : (s.under outer).wordMayStart = s.wordMayStart := rfl

theorem endCodeLine_under : (s.under outer).endCodeLine = s.endCodeLine.under outer := by
  have hdocs : (s.under outer).hereDocs = s.hereDocs := rfl
  unfold endCodeLine
  rw [hdocs]
  split <;> rfl

theorem closeGroup_under {b : Bracket}
    (none_closed : s.groups = [] → ∀ g ∈ outer.head?, g.bracket ≠ b) :
    (s.under outer).closeGroup b = (s.closeGroup b).under outer := by
  obtain ⟨line, mode, openedOn, escaping, last, groups, hereDocs, lineSoFar⟩ := s
  cases groups with
  | nil =>
    cases outer with
    | nil => rfl
    | cons g outer => exact if_neg (none_closed rfl g rfl)
  | cons g groups =>
    simp only [closeGroup, under, List.cons_append]
    split
    · cases g.quoteLine <;> rfl
    · rfl

/-- What is arithmetic stays arithmetic under further groups. -/
theorem inArithmetic_under_of (h : s.inArithmetic = true) :
    (s.under outer).inArithmetic = true := by
  obtain ⟨line, mode, openedOn, escaping, last, groups, hereDocs, lineSoFar⟩ := s
  match groups with
  | [] => exact absurd h Bool.false_ne_true
  | [_] => exact absurd h Bool.false_ne_true
  | g :: k :: groups => exact h

theorem inArithmetic_under (brace : ∀ g ∈ outer.head?, g.bracket = .brace) :
    (s.under outer).inArithmetic = s.inArithmetic := by
  obtain ⟨line, mode, openedOn, escaping, last, groups, hereDocs, lineSoFar⟩ := s
  match groups, outer with
  | g :: h :: groups, outer => rfl
  | [g], [] => rfl
  | [g], h :: outer => simp [inArithmetic, under, brace h rfl]
  | [], [] => rfl
  | [], [h] => rfl
  | [], h :: k :: outer => simp [inArithmetic, under, brace h rfl]

/-- Only outside arithmetic a document is announced. -/
theorem inArithmetic_of_length_hereDocs {c : Char} {rest : List Char}
    (grows : s.hereDocs.length < (s.step p c rest).1.hereDocs.length) :
    s.inArithmetic = false := by
  obtain ⟨t, role, hreaction, hstep⟩ := exists_reaction p s c rest
  rw [hstep] at grows
  change s.hereDocs.length < t.hereDocs.length at grows
  by_contra harithmetic
  refine absurd grows (Nat.not_lt.2 ?_)
  cases hreaction with
  | announce => rw [announceHereDoc, if_pos (by simpa using harithmetic)]
  | endLine => rw [hereDocs_endCodeLine]
  | closeGroup b => rw [hereDocs_closeGroup]
  | endHereDocLine _ _ hc =>
    simp only [inHereDoc, hc, if_true]
    split <;> simp
  | _ => exact le_rfl

theorem announceHereDoc_under {text : List Char}
    (free : s.hereDocs.length < (s.announceHereDoc text).hereDocs.length →
      (s.under outer).inArithmetic = false) :
    (s.under outer).announceHereDoc text = (s.announceHereDoc text).under outer := by
  have hline : (s.under outer).line = s.line := rfl
  unfold announceHereDoc at free ⊢
  rw [hline]
  by_cases harithmetic : s.inArithmetic = true
  · rw [if_pos harithmetic, if_pos (inArithmetic_under_of harithmetic)]
  · rw [if_neg harithmetic] at free ⊢
    cases hdoc : HereDoc.announced? s.line text with
    | none => exact ite_self _
    | some doc =>
      have hfree : (s.under outer).inArithmetic = false := free (by simp [hdoc])
      rw [hfree]
      rfl

/-! ### Reactions -/

/-- Two reactions answer the same class, and the first has further groups open. -/
def IsUnder (outer : List Group) (a b : Nesting × CharRole) : Prop :=
  a = (b.1.under outer, b.2)

theorem IsUnder.ite {P : Prop} [Decidable P] {a b a' b' : Nesting × CharRole}
    (pos : P → IsUnder outer a b) (neg : IsUnder outer a' b') :
    IsUnder outer (if P then a else a') (if P then b else b') := by
  split
  · next h => exact pos h
  · exact neg

/-- In code, only closing brackets and arithmetic look at the groups. -/
theorem inCode_under {c : Char}
    (none_closed : s.groups = [] → ∀ g ∈ outer.head?, Bracket.ofCloser? c ≠ some g.bracket)
    (other : ¬ (c = '<' ∧ p.hereDocs = true)) (rest : List Char) :
    IsUnder outer (inCode p (s.under outer) c rest) (inCode p s c rest) := by
  unfold inCode
  rw [lastChar?_under, wordMayStart_under]
  refine .ite (fun _ ↦ rfl) (.ite (fun _ ↦ rfl) (.ite (fun _ ↦ rfl) (.ite (fun _ ↦ rfl)
    (.ite (fun _ ↦ rfl) (.ite (fun _ ↦ rfl) (.ite (fun _ ↦ rfl) (.ite (fun h ↦ ?_)
      (.ite (fun _ ↦ ?_) ?_))))))))
  · exact absurd ⟨h.1, h.2.1⟩ other
  · exact congrArg (·, CharRole.code) endCodeLine_under
  · split
    · rfl
    · next b _ hclose =>
      refine congrArg (·, CharRole.code) (closeGroup_under fun hgroups g hg ↦ ?_)
      rintro rfl
      exact none_closed hgroups g hg hclose
    · rfl

/-- In every dialect a closing bracket in code is code. -/
theorem role_inCode_closer {c : Char} {b : Bracket} (hc : Bracket.ofCloser? c = some b)
    (rest : List Char) : (inCode d.profile s c rest).2 = .code := by
  rcases Bracket.eq_of_ofCloser? hc with rfl | rfl <;> cases d <;>
    simp [inCode, Dialect.profile, Profile.bash, Profile.zsh, Profile.sh, Profile.pwsh,
      Bracket.ofOpener?, Bracket.ofCloser?]

theorem inQuotes_under (escape : Option Char) (quote c : Char) :
    IsUnder outer (inQuotes escape quote (s.under outer) c) (inQuotes escape quote s c) :=
  .ite (fun _ ↦ rfl) (.ite (fun _ ↦ rfl) rfl)

/-- Further groups outside do not change what a character is, nor what it does to the state, unless
it is a closing bracket of code that belongs to them, or announces where they make arithmetic. -/
theorem react_under {c : Char} {rest : List Char}
    (none_closed : (s.react d.profile c rest).2 = .code → s.groups = [] →
      ∀ g ∈ outer.head?, Bracket.ofCloser? c ≠ some g.bracket)
    (free : s.hereDocs.length < (s.react d.profile c rest).1.hereDocs.length →
      (s.under outer).inArithmetic = false) :
    IsUnder outer ((s.under outer).react d.profile c rest) (s.react d.profile c rest) := by
  have hmodes : (s.under outer).mode = s.mode := rfl
  by_cases hready : s.escaping = true
  · have hready' : (s.under outer).escaping = true := hready
    rw [react, react, if_pos hready, if_pos hready']
    rfl
  by_cases hangle : s.mode = .code ∧ c = '<' ∧ d.profile.hereDocs = true
  · obtain ⟨hmode, rfl, docs⟩ := hangle
    rw [Bool.not_eq_true] at hready
    have hreact := react_angle rest hmode hready docs
    rw [hreact] at free ⊢
    rw [react_angle rest (s := s.under outer) hmode hready docs, lastChar?_under]
    by_cases hlast : s.lastChar? = some '<'
    · rw [if_pos hlast, if_pos hlast]
      rfl
    · rw [if_neg hlast] at free
      rw [if_neg hlast, if_neg hlast, announceHereDoc_under free]
      rfl
  · have hready' : ¬ (s.under outer).escaping = true := hready
    have hcode (hmode : s.mode = .code) : s.react d.profile c rest = inCode d.profile s c rest := by
      rw [react, if_neg hready, hmode]
    rw [react, if_neg hready', hmodes]
    cases hmode : s.mode with
    | code =>
      rw [hcode hmode] at none_closed ⊢
      refine inCode_under (fun hgroups g hg hc ↦ ?_) (fun h ↦ hangle ⟨hmode, h⟩) rest
      exact none_closed (role_inCode_closer hc rest) hgroups g hg hc
    | single | ansi | backquote =>
      rw [react, if_neg hready, hmode]
      exact inQuotes_under _ _ c
    | double =>
      rw [react, if_neg hready, hmode]
      exact .ite (fun _ ↦ rfl) (.ite (fun _ ↦ rfl) (inQuotes_under none '"' c))
    | comment =>
      rw [react, if_neg hready, hmode]
      have hend := @endCodeLine_under outer { s with mode := .code }
      exact .ite (fun _ ↦ congrArg (·, CharRole.code) hend) rfl
    | blockComment progress =>
      rw [react, if_neg hready, hmode]
      cases progress with
      | opening => rfl
      | inside closing => exact .ite (fun _ ↦ rfl) rfl
    | hereDoc =>
      rw [react, if_neg hready, hmode]
      exact .ite (fun _ ↦ rfl) rfl
    | hereString quote =>
      rw [react, if_neg hready, hmode]
      exact .ite (fun _ ↦ rfl) rfl

theorem step_under {c : Char} {rest : List Char}
    (none_closed : (s.step d.profile c rest).2 = .code → s.groups = [] →
      ∀ g ∈ outer.head?, Bracket.ofCloser? c ≠ some g.bracket)
    (free : s.hereDocs.length < (s.step d.profile c rest).1.hereDocs.length →
      (s.under outer).inArithmetic = false) :
    (s.under outer).step d.profile c rest =
      ((s.step d.profile c rest).1.under outer, (s.step d.profile c rest).2) := by
  have hreact := react_under none_closed free
  unfold step
  rw [hreact]
  rfl

end Nesting

/-! ### Texts -/

namespace Mark

/-- The mark, with further groups open outside. -/
def under (outer : List Group) (m : Mark) : Mark :=
  { m with before := m.before.under outer, after := m.after.under outer }

/-- The character adds a here-document to the queue. -/
def Announces (m : Mark) : Prop :=
  m.before.hereDocs.length < m.after.hereDocs.length

/-- Under further groups the character closes none of them. -/
def ClosesNone (outer : List Group) (m : Mark) : Prop :=
  m.role = .code → m.before.groups = [] →
    ∀ g ∈ outer.head?, Bracket.ofCloser? m.char ≠ some g.bracket

/-- Where the character announces a here-document, further groups do not make arithmetic. -/
def AnnouncesFreely (outer : List Group) (m : Mark) : Prop :=
  m.Announces → (m.before.under outer).inArithmetic = false

instance : DecidablePred Announces :=
  fun m ↦ inferInstanceAs (Decidable (m.before.hereDocs.length < m.after.hereDocs.length))

instance (outer : List Group) : DecidablePred (ClosesNone outer) :=
  fun m ↦ inferInstanceAs (Decidable (m.role = .code → m.before.groups = [] →
    ∀ g ∈ outer.head?, Bracket.ofCloser? m.char ≠ some g.bracket))

instance (outer : List Group) : DecidablePred (AnnouncesFreely outer) :=
  fun m ↦ inferInstanceAs (Decidable (m.Announces → (m.before.under outer).inArithmetic = false))

/-- A closing brace of code stands in a group of its own text. -/
def IsPaired (m : Mark) : Prop :=
  m.char = '}' → m.role = .code → m.before.groups ≠ []

instance : DecidablePred IsPaired :=
  fun m ↦ inferInstanceAs (Decidable (m.char = '}' → m.role = .code → m.before.groups ≠ []))

/-- Only a closing brace closes a brace. -/
theorem IsPaired.closesNone {m : Mark} {outer : List Group} (h : m.IsPaired)
    (brace : ∀ g ∈ outer.head?, g.bracket = .brace) : m.ClosesNone outer := by
  intro hrole hgroups g hg hclose
  rw [brace g hg] at hclose
  rcases Bracket.eq_of_ofCloser? hclose with hbrace | hparen
  · exact h hbrace hrole hgroups
  · rw [hparen] at hclose
    exact absurd hclose (by decide)

end Mark

section Texts

variable {d : Dialect} {outer : List Group} {s : Nesting} {text ahead : List Char}

/-- A text that closes none of the further groups, and announces nothing where they make arithmetic,
is read under them as it is without them. -/
theorem marksAhead_under {offset : Nat}
    (none_closed : ∀ m ∈ marksAhead d.profile ahead s offset text, m.ClosesNone outer)
    (free : ∀ m ∈ marksAhead d.profile ahead s offset text, m.AnnouncesFreely outer) :
    marksAhead d.profile ahead (s.under outer) offset text =
      (marksAhead d.profile ahead s offset text).map (Mark.under outer) := by
  induction text generalizing s offset with
  | nil => rfl
  | cons c rest ih =>
    rw [marksAhead_cons] at none_closed free
    have hstep := Nesting.step_under (none_closed _ List.mem_cons_self) (free _ List.mem_cons_self)
    rw [marksAhead_cons, marksAhead_cons, hstep, List.map_cons,
      ih (fun m hm ↦ none_closed m (List.mem_cons_of_mem _ hm))
        fun m hm ↦ free m (List.mem_cons_of_mem _ hm)]
    rfl

theorem afterText_of_marksAhead_under
    (h : marksAhead d.profile ahead (s.under outer) 0 text =
      (marksAhead d.profile ahead s 0 text).map (Mark.under outer)) :
    (s.under outer).afterText d.profile text ahead =
      (s.afterText d.profile text ahead).under outer := by
  rw [Nesting.afterText, Nesting.afterText, h, Nesting.afterMarks, Nesting.afterMarks,
    List.getLast?_map]
  cases (marksAhead d.profile ahead s 0 text).getLast? <;> rfl

/-- A brace does not make arithmetic. -/
theorem announcesFreely_of_brace (brace : ∀ g ∈ outer.head?, g.bracket = .brace) {offset : Nat}
    {m : Mark} (hm : m ∈ marksAhead d.profile ahead s offset text) : m.AnnouncesFreely outer := by
  intro announces
  obtain ⟨_, behind, -, -, hstep⟩ := Nesting.exists_of_mem_marksAhead hm
  have hafter : m.after = (m.before.step d.profile m.char (behind ++ ahead)).1 := by rw [hstep]
  rw [Mark.Announces, hafter] at announces
  rw [Nesting.inArithmetic_under brace]
  exact Nesting.inArithmetic_of_length_hereDocs announces

/-- A text whose closing braces have groups of their own is read below a brace as it is without
it. -/
theorem marksAhead_under_brace (brace : ∀ g ∈ outer.head?, g.bracket = .brace) {offset : Nat}
    (paired : ∀ m ∈ marksAhead d.profile ahead s offset text, m.IsPaired) :
    marksAhead d.profile ahead (s.under outer) offset text =
      (marksAhead d.profile ahead s offset text).map (Mark.under outer) :=
  marksAhead_under (fun m hm ↦ (paired m hm).closesNone brace)
    fun _ hm ↦ announcesFreely_of_brace brace hm

end Texts

/-! ### The inside of a block -/

/-- Two readings that stay side by side have the same property mark by mark, if related marks do. -/
theorem forall_of_forall₂ {α β : Type} {R : α → β → Prop} {P : α → Prop} {Q : β → Prop}
    {l : List α} {l' : List β} (h : List.Forall₂ R l l') (step : ∀ {a b}, R a b → P a → Q b)
    (all : ∀ a ∈ l, P a) : ∀ b ∈ l', Q b := by
  induction h with
  | nil => simp
  | cons hab _ ih =>
    intro b hb
    rcases List.mem_cons.1 hb with rfl | hb
    · exact step hab (all _ List.mem_cons_self)
    · exact ih (fun a ha ↦ all a (List.mem_cons_of_mem _ ha)) b hb

theorem Mark.IsPaired.of_related {bytes : Nat} {m n : Mark}
    (h : Mark.Related Nesting.Like bytes m n) (hm : m.IsPaired) : n.IsPaired := by
  intro hchar hrole hnil
  refine hm (h.char.trans hchar) (h.role.trans hrole) ?_
  have hlength := h.before.depth
  rwa [Nesting.depth, Nesting.depth, hnil, List.length_nil, List.length_eq_zero_iff] at hlength

/-- A text of whole lines that leaves nothing open, and whose closing braces have groups of their
own, is the inside of a body. -/
theorem isInside_of_balanced {d : Dialect} {text : List Char}
    (ends : ∀ c ∈ text.getLast?, c = '\n')
    (balanced : ((Nesting.start 1).afterText d.profile text []).isBalanced = true)
    (paired : ∀ m ∈ marks d.profile text, m.IsPaired) (ahead : List Char) :
    IsInside d.profile text ahead := by
  suffices h : IsInside d.profile text [] from h.congr_of_ends ends ahead
  -- Behind the opening brace and its newline, a word may begin as at the start of a text.
  set u : Nesting := { Nesting.start 1 with line := 2, last := some ('\n', .code) } with hu
  set outer : List Group := [⟨.brace, 1, none⟩] with houter
  have hbody : bodyStart = u.under outer := rfl
  have hbrace : ∀ g ∈ outer.head?, g.bracket = .brace := by
    rintro g ⟨⟩
    rfl
  have alike : (Nesting.start 1).Like u :=
    (Nesting.atWord_start 1).like ⟨rfl, fun c hc ↦ by
      obtain rfl := Option.some_inj.1 hc
      decide⟩
  have hpaired (bytes : Nat) : ∀ m ∈ marksAhead d.profile [] u (0 + bytes) text, m.IsPaired := by
    rw [marksAhead_nil]
    exact forall_of_forall₂ (forall₂_marksFrom (fun h c rest ↦ h.step c rest) alike 0 bytes text)
      (fun h hm ↦ hm.of_related h) paired
  have hafter : (Nesting.start 1).afterText d.profile ('{' :: '\n' :: text) [] =
      (u.afterText d.profile text []).under outer := by
    rw [afterText_brace Nesting.justStarted_start, hbody,
      afterText_of_marksAhead_under (marksAhead_under_brace hbrace (hpaired 0))]
  obtain ⟨hmode, hgroups, hdocs, hready⟩ :=
    Nesting.isBalanced_iff.1 ((alike.afterText text []).isBalanced ▸ balanced)
  refine ⟨fun m hm ↦ ?_, ?_, ?_, ?_, ?_⟩
  · obtain ⟨brace, newline, hsplit, hdepth, hdepth'⟩ :=
      marksAhead_brace (d := d) Nesting.justStarted_start [] 0 text
    rw [hsplit] at hm
    rcases List.mem_cons.1 hm with rfl | hm
    · simp [hdepth]
    · rcases List.mem_cons.1 hm with rfl | hm
      · simp [hdepth']
      · rw [hbody, marksAhead_under_brace hbrace (hpaired 2), List.mem_map] at hm
        obtain ⟨n, -, rfl⟩ := hm
        simp [Mark.depth, Mark.under, Nesting.depth, Nesting.under, houter]
  all_goals rw [hafter]
  · exact hmode
  · simp [Nesting.depth, Nesting.under, hgroups, houter]
  · exact hdocs
  · exact hready

end ShellCatalog
