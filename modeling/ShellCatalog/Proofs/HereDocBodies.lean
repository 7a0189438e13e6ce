import ShellCatalog.Proofs.ExposedBody
import ShellCatalog.Proofs.SettlingFronts
import ShellCatalog.Proofs.StatementTiling

/-!
# What the bodies of here-documents can change

A text and its rewriting (`Rewritten`) differ in lines of the bodies of here-documents that were
announced outside every group. Both are read in lockstep, are cut into lines at the same places and
hold statements that correspond. What remains is whether two statements that correspond define the
same, though one of them may hold another body.

## When a body is hidden

A statement is read anew from its own first character. If a document was announced in an earlier
statement of the line, the reading of the one that holds the body does not know of it, and the body
is read as code. What stands in front of the body in its statement is a front, and the body is
harmless behind every front that settles.

* `Settled p front`: whatever follows the front, its statement defines the same. It is said of one
  front and of nothing else in the file.
* `LogicalLine.HidesBodies`: every front of a logical line settles. If the line begins with a body
  of a function whose header stands in front of it, the two are joined, and the header must leave
  nothing open or the line would be read from another state.
* `HideBodies`: every line of a file does, each behind the header that the lines in front of it
  leave dangling.
* `SettlesLine p command`: the same as `Settled`, said of the files that hold a single command line
  between the announcement and the body, and of what such a file defines.
* `IsCovering d command`: the body in such a file may be exchanged.

## The two results, and what each rests on

* `Findings.ofLines_rewritten`, that files which hide their bodies define what their rewritings
  define. It rests on the correspondence of the statements (`Rewritten.exists_pieces_statements`),
  and takes it from a line (`RewrittenLine.ofLine_eq`) to a line behind a header
  (`RewrittenLine.ofLine_behind`) and to a file, by induction on its lines.
* `settlesLine_iff_isCovering`, that for a single command line the condition is exact. It rests on
  `findings_exposedFile`: such a file defines what its statement defines with the body as code. Two
  bodies that the statement tells apart are made equally long, and then the files differ.

Whether a front settles can be read off its form in most cases (`IsSettling.settled`), and so can
whether a file hides its bodies (`hideBodies_of_isSettling`). An alias command behind the
announcement is the form that never settles (`not_settled_of_alias`): its arguments go on in the
body.
-/

namespace ShellCatalog

/-! ### Statements in order -/

/-- The statements of a text begin one after the other, so no two of them are equal. -/
theorem nodup_statements (p : Profile) (text : List Char) (line : Nat) :
    (statements p text line).Nodup := by
  refine (pairwise_offset_statements p text line).imp fun hlt heq ↦ ?_
  rw [heq] at hlt
  exact Nat.lt_irrefl _ hlt

/-- Lists that correspond are mapped alike when only the last member is mapped differently. -/
theorem map_isLast_congr {α β γ : Type} [DecidableEq α] [DecidableEq β] {f : α → Bool → γ}
    {g : β → Bool → γ} {l : List α} {l' : List β}
    (h : List.Forall₂ (fun a b ↦ ∀ isLast, f a isLast = g b isLast) l l') (nodup : l.Nodup)
    (nodup' : l'.Nodup) :
    l.map (fun a ↦ f a (l.getLast? = some a)) = l'.map fun b ↦ g b (l'.getLast? = some b) := by
  induction h with
  | nil => rfl
  | @cons a b l l' hab hl ih =>
    obtain ⟨ha, hl_nodup⟩ := List.nodup_cons.1 nodup
    obtain ⟨hb, hl_nodup'⟩ := List.nodup_cons.1 nodup'
    have htail := ih hl_nodup hl_nodup'
    cases hl with
    | nil => simp [hab true]
    | @cons c e l l' _ _ =>
      have hfirst : (c :: l).getLast? ≠ some a := fun h ↦ ha (List.mem_of_getLast? h)
      have hfirst' : (e :: l').getLast? ≠ some b := fun h ↦ hb (List.mem_of_getLast? h)
      show f a _ :: List.map _ (c :: l) = g b _ :: List.map _ (e :: l')
      simp only [List.getLast?_cons_cons]
      rw [htail, decide_eq_false hfirst, decide_eq_false hfirst', hab false]

/-- Texts whose statements correspond and mean the same define the same. -/
theorem Extraction.ofText_congr {p : Profile} {file : Path} {text text' : List Char} {line : Nat}
    (h : List.Forall₂ (SameMeaning p file) (statements p text line) (statements p text' line)) :
    ofText p file text line = ofText p file text' line := by
  rw [ofText_eq, ofText_eq, map_isLast_congr h (nodup_statements ..) (nodup_statements ..)]

/-- A line that is read on its own defines what its rewriting defines, if it settles its
statements. -/
theorem RewrittenLine.ofLine_eq {p : Profile} {l l' : LogicalLine} (h : RewrittenLine p l l')
    (file : Path) (settled : ∀ front ∈ l.fronts p, Settled p front) :
    Extraction.ofLine p file l' = Extraction.ofLine p file l := by
  obtain ⟨run, runs, run', runs', hruns, hruns', hrun, hothers⟩ :=
    h.text.exists_pieces_statements List.not_mem_nil h.done 0 0 settled
  have hstatements : List.Forall₂ (SameMeaning p file) (statements p l.text l.line)
      (statements p l'.text l.line) := by
    rw [statements, statements, marks, marks, hruns, hruns']
    exact List.rel_filterMap (fun r r' hr ↦ hr.rel_ofMarks? file) (.cons hrun hothers)
  rw [Extraction.ofLine, Extraction.ofLine, h.complete, h.complete']
  show Extraction.ofText p file l'.text l'.line = Extraction.ofText p file l.text l.line
  rw [h.line]
  exact (Extraction.ofText_congr hstatements).symm

/-! ### Lines behind a dangling header -/

theorem Nesting.lastChar?_afterText_concat (p : Profile) (s : Nesting) (text ahead : List Char)
    (c : Char) : (s.afterText p (text ++ [c]) ahead).lastChar? = some c := by
  rw [afterText_append, afterText_cons, afterText_nil]
  rfl

/-- A rewriting exchanges nothing when no line of a body begins in the text. -/
theorem Rewritten.eq_of_frontsFrom {p : Profile} {s : Nesting} {outer : List Bool}
    {text text' : List Char} (h : Rewritten p s outer text text') {front : List Char} {offset : Nat}
    (none : frontsFrom outer front (marksFrom p s offset text) = []) : text = text' := by
  induction h generalizing front offset with
  | nil => rfl
  | keep _ ih =>
    rw [marksFrom_cons] at none
    rw [ih (List.append_eq_nil_iff.1 none).2]
  | @line s outer doc line line' rest rest' hdoc single single' goes_on goes_on' _ ih =>
    have hfront : front ∈ frontsFrom outer front (marksFrom p s offset (line ++ '\n' :: rest)) :=
      mem_frontsFrom rest offset hdoc single goes_on
    rw [none] at hfront
    exact absurd hfront List.not_mem_nil

/-- A line and its rewriting both begin with a body, or neither does. -/
theorem RewrittenLine.beginsBody_eq {p : Profile} {l l' : LogicalLine} (h : RewrittenLine p l l') :
    l'.beginsBody p = l.beginsBody p := by
  have hfirst (front rest : List Char) : (trimStart (front ++ '<' :: rest)).head? =
      (trimStart front).head?.or (some '<') := by
    have hbar : trimStart ('<' :: rest) = '<' :: rest := trimStart_cons rest (by decide)
    rw [trimStart, List.dropWhile_append, ← trimStart, ← trimStart, hbar]
    cases trimStart front <;> rfl
  rcases h.text.exists_bar rfl with heq | ⟨front, rest, rest', heq, heq'⟩
  · rw [LogicalLine.beginsBody, LogicalLine.beginsBody, heq]
  · rw [LogicalLine.beginsBody, heq', hfirst, LogicalLine.beginsBody, heq, hfirst]

/-- The line, read behind a dangling header, keeps the bodies of its documents to itself: every line
of a body stands behind a front that settles its statement, and no header runs into a line that
holds a body. -/
structure LogicalLine.HidesBodies (p : Profile) (dangling : Option LogicalLine) (l : LogicalLine) :
    Prop where
  settled : ∀ front ∈ (l.behind p dangling).fronts p, Settled p front
  closed : l.fronts p ≠ [] → ∀ h ∈ dangling, l.beginsBody p →
    ((Nesting.start h.line).afterText p (h.text ++ [' ']) l.text).isBalanced

/-- A line that stays as it is when none of its lines may be exchanged. -/
theorem RewrittenLine.eq_of_fronts {p : Profile} {l l' : LogicalLine} (h : RewrittenLine p l l')
    (none : l.fronts p = []) : l' = l := by
  obtain ⟨text, line, leftOpen⟩ := l
  obtain ⟨text', line', leftOpen'⟩ := l'
  have htext : text = text' := h.text.eq_of_frontsFrom none
  have hline : line' = line := h.line
  have hopen : leftOpen = .none := h.complete
  have hopen' : leftOpen' = .none := h.complete'
  rw [htext, hline, hopen, hopen']

/-- A header that leaves nothing open may stand in front of both. -/
theorem RewrittenLine.append {p : Profile} {l l' : LogicalLine} (h : RewrittenLine p l l')
    {header : LogicalLine}
    (closed : ((Nesting.start header.line).afterText p (header.text ++ [' ']) l.text).isBalanced) :
    RewrittenLine p ⟨header.text ++ ' ' :: l.text, header.line, none⟩
      ⟨header.text ++ ' ' :: l'.text, header.line, none⟩ := by
  set s := (Nesting.start header.line).afterText p (header.text ++ [' ']) l.text with hs
  have hword : s.AtWord := by
    refine ⟨closed, fun c hc ↦ ?_⟩
    rw [hs, Nesting.lastChar?_afterText_concat] at hc
    obtain rfl := Option.some.inj hc
    decide
  have alike : (Nesting.start l.line).Like s := (Nesting.atWord_start l.line).like hword
  have hdocs : s.hereDocs = [] := (Nesting.isBalanced_iff.1 closed).2.2.1
  refine ⟨?_, ?_, rfl, rfl, rfl⟩
  · show Rewritten p (.start header.line) [] (header.text ++ ' ' :: l.text)
      (header.text ++ ' ' :: l'.text)
    rw [List.append_cons header.text ' ' l.text, List.append_cons header.text ' ' l'.text]
    have sync : ([] : List Bool).length = (Nesting.start header.line).hereDocs.length := rfl
    have houter := Nesting.length_outerAfterText (p := p) (header.text ++ [' ']) l.text sync
    rw [← hs, hdocs, List.length_nil, List.length_eq_zero_iff] at houter
    refine Rewritten.append ?_
    rw [houter, ← hs]
    exact h.text.of_like alike
  · show ¬ ((Nesting.start header.line).afterText p (header.text ++ ' ' :: l.text) []).Waits
    rw [List.append_cons, Nesting.afterText_append, List.append_nil, ← hs]
    exact mt (alike.afterText _ _).waits_iff.2 h.done

/-- Behind the same dangling header, a line that hides its bodies defines what its rewriting
defines. -/
theorem RewrittenLine.ofLine_behind {p : Profile} {l l' : LogicalLine} (h : RewrittenLine p l l')
    (file : Path) {dangling : Option LogicalLine} (hide : l.HidesBodies p dangling) :
    Extraction.ofLine p file (l'.behind p dangling) =
      Extraction.ofLine p file (l.behind p dangling) := by
  by_cases hfronts : l.fronts p = []
  · rw [h.eq_of_fronts hfronts]
  · suffices hlines : RewrittenLine p (l.behind p dangling) (l'.behind p dangling) from
      hlines.ofLine_eq file hide.settled
    cases dangling with
    | none => exact h
    | some header =>
      have hopen : l.isOpen = false := by rw [LogicalLine.isOpen, h.complete]; rfl
      have hopen' : l'.isOpen = false := by rw [LogicalLine.isOpen, h.complete']; rfl
      have hclosed := hide.closed hfronts header rfl
      unfold LogicalLine.behind
      rw [hopen, hopen', h.beginsBody_eq]
      cases hbegins : l.beginsBody p with
      | false => exact h
      | true => exact h.append (hclosed hbegins)

/-! ### Files -/

/-- Every line of a file hides its bodies; `dangling` is the header in front of the first line. -/
def HideBodies (p : Profile) (file : Path) (dangling : Option LogicalLine) :
    List LogicalLine → Prop
  | [] => True
  | l :: rest =>
    l.HidesBodies p dangling ∧
      HideBodies p file (Extraction.ofLine p file (l.behind p dangling)).dangling rest

/-- A file hides its bodies if it can be read off the fronts, and no line begins with the body of a
function. -/
theorem hideBodies_of_isSettling {d : Dialect} {file : Path} {ls : List LogicalLine}
    (sh : d ≠ .pwsh) (h : ∀ l ∈ ls, l.beginsBody d.profile = false ∧
      ∀ front ∈ l.fronts d.profile, IsSettling d front) (dangling : Option LogicalLine) :
    HideBodies d.profile file dangling ls := by
  induction ls generalizing dangling with
  | nil => trivial
  | cons l ls ih =>
    obtain ⟨⟨alone, hfronts⟩, hrest⟩ := List.forall_mem_cons.1 h
    have hbehind : l.behind d.profile dangling = l :=
      (l.behind_cases d.profile dangling).resolve_right fun ⟨_, _, _, begins, _⟩ ↦ by
        simp [alone] at begins
    refine ⟨⟨fun front hfront ↦ ?_, fun _ _ _ begins ↦ ?_⟩, ih hrest _⟩
    · exact (hfronts front (hbehind ▸ hfront)).settled sh
    · exact absurd begins (by simp [alone])

theorem Findings.ofLines_rewritten {p : Profile} {file : Path} {ls ls' : List LogicalLine}
    (h : List.Forall₂ (RewrittenLine p) ls ls') {dangling : Option LogicalLine}
    (hide : HideBodies p file dangling ls) :
    ofLines p file dangling ls' = ofLines p file dangling ls := by
  induction h generalizing dangling with
  | nil => rfl
  | cons hl _ ih =>
    obtain ⟨hfirst, hrest⟩ := hide
    rw [ofLines, ofLines, hl.ofLine_behind file hfirst, ih hrest]

/-- A complete file whose lines hide the bodies of their here-documents defines and reports the same
whatever stands in these bodies. A command line behind an announcement hides the body exactly if it
settles its statement. -/
theorem findings_rewritten {d : Dialect} (sh : d ≠ .pwsh) :
    (∀ (path : Path) (text text' : List Char),
      (∀ l ∈ logicalLines d.profile text, l.leftOpen = none) →
      Rewritten d.profile (.start 1) [] text text' →
      HideBodies d.profile path none (logicalLines d.profile text) →
      (⟨path, text'⟩ : Source).findings (some d) = (⟨path, text⟩ : Source).findings (some d)) ∧
    ∀ command, IsFlat d.profile command →
      (SettlesLine d.profile command ↔ IsCovering d command) := by
  constructor
  · intro path text text' complete same hide
    show Except.ok (Findings.ofSource d.profile ⟨path, text'⟩) =
      Except.ok (Findings.ofSource d.profile ⟨path, text⟩)
    rw [Findings.ofSource, Findings.ofSource]
    exact congrArg _ (Findings.ofLines_rewritten (same.forall₂_logicalLines complete) hide)
  · intro command flat
    exact settlesLine_iff_isCovering sh flat

/-- A pipeline behind the announcement hides the body, and nothing at all behind it does not. -/
theorem findings_rewritten_of_pipeline :
    (⟨⟨"rc"⟩, "cat <<EOF | grep -v x\nf() \x7b x; \x7d\nEOF\n".toList⟩ : Source).findings
        (some .bash) =
        (⟨⟨"rc"⟩, "cat <<EOF | grep -v x\nalias y=2\nEOF\n".toList⟩ : Source).findings
          (some .bash) ∧
      ¬ IsCovering .bash [] := by
  obtain ⟨hrewritten, hcovering⟩ := findings_rewritten (d := .bash) (by decide)
  constructor
  · let first : List Char := "cat <<EOF | grep -v x\n".toList
    let rest : List Char := "alias y=2\nEOF\n".toList
    let doc : HereDoc := ⟨"EOF".toList, false, 1⟩
    have hlines : logicalLines Dialect.bash.profile (first ++ rest) =
        [⟨"cat <<EOF | grep -v x\nalias y=2\nEOF".toList, 1, none⟩] := by decide +kernel
    have hfronts : (⟨"cat <<EOF | grep -v x\nalias y=2\nEOF".toList, 1, none⟩ : LogicalLine).fronts
        Dialect.bash.profile = [" grep -v x\n".toList] := by decide +kernel
    have houter : (Nesting.start 1).outerAfterText Dialect.bash.profile [] first rest = [true] := by
      decide +kernel
    have hbody : ((Nesting.start 1).afterText Dialect.bash.profile first rest).outerBody? [true] =
        some doc := by decide +kernel
    have hsettling : IsSettling .bash " grep -v x\n".toList :=
      .command (show trimStart " grep -v x\n".toList =
        "grep".toList ++ ' ' :: '-' :: "v x\n".toList by decide) (by decide)
        (List.all_eq_true.1 (by decide)) (by decide) (by decide)
    refine hrewritten ⟨"rc"⟩ (first ++ rest) (first ++ "f() \x7b x; \x7d\nEOF\n".toList) ?_ ?_ ?_
    · rw [hlines]
      simp
    · refine Rewritten.append ?_
      rw [houter]
      exact .line hbody (show '\n' ∉ "alias y=2".toList by decide)
        (show '\n' ∉ "f() \x7b x; \x7d".toList by decide) (by decide) (by decide) (.refl ..)
    · rw [hlines]
      refine hideBodies_of_isSettling (d := .bash) (by decide) (fun l hl ↦ ?_) none
      obtain rfl := List.mem_singleton.1 hl
      refine ⟨by decide, fun front hfront ↦ ?_⟩
      rw [hfronts, List.mem_singleton] at hfront
      rwa [hfront]
  · intro h
    have hsettles := (hcovering [] (by simp [IsFlat])).2 h
    exact absurd hsettles.1 (by decide)

end ShellCatalog
