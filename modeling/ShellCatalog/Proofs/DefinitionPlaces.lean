import ShellCatalog.Proofs.InventoryContents
import ShellCatalog.Proofs.LineTiling
import ShellCatalog.Proofs.ScanReport

/-!
# Where definitions are found

Every definition of an inventory names a file that was scanned, a line of that file and a name that
the file's dialect accepts, and so does every report on a bad name, except that its name is not
accepted. This holds whether the definition is live or shadowed, and however far the scan came.

**Lines stay inside the file.** A statement is found on the line of its first character, and the
text from there on is as long as the rest of the file or shorter; that holds again for the inside of
a brace group, which is read from the line of the group on (`Extraction.isPlaced_ofText`). A line
that is joined to a header moves up and never down (`LogicalLine.place_behind`).

**Names pass one check** (`define`), whatever they were read from, and the check decides whether the
name is defined or reported.
-/

namespace ShellCatalog

/-! ### Statements end in a visible character -/

/-- A statement is not blank, and no blank ends it. -/
theorem trim_of_mem_statements {p : Profile} {text : List Char} {line : Nat} {s : Statement}
    (h : s ∈ statements p text line) : isBlank s.text = false ∧ trimEnd s.text = s.text := by
  obtain ⟨front, body, behind, hstands⟩ := Statement.exists_standsAt h
  obtain ⟨m, rest, rfl, hvisible⟩ := hstands.begins
  have hfull : isBlank s.text = false := by
    rw [hstands.text_eq]
    simp [Mark.text, isBlank, hvisible]
  exact ⟨hfull, trimEnd_eq_self_iff.2 hstands.ends⟩

/-- A part of a text that is not blank ends, its last blanks apart, within the text without its last
blanks. -/
theorem lineAfter_trimEnd_le {middle : List Char} (line : Nat) (front behind : List Char)
    (visible : isBlank middle = false) :
    lineAfter line (front ++ trimEnd middle) ≤
      lineAfter line (trimEnd (front ++ middle ++ behind)) := by
  have hfull : trimEnd middle ≠ [] := by
    rw [ne_eq, trimEnd_eq_nil_iff, visible]
    decide
  by_cases hblank : isBlank behind = true
  · rw [trimEnd_append_of_isBlank _ hblank, trimEnd_append hfull]
  · rw [trimEnd_append (mt trimEnd_eq_nil_iff.1 hblank)]
    exact lineAfter_mono (((trimEnd_isPrefix middle).sublist.append_left front).trans
      (List.sublist_append_left _ _))

/-! ### Places -/

/-- The definition stands in `file` between two of its lines, and its name is one that the rules
accept. -/
structure Definition.IsPlaced (p : Profile) (file : Path) (first last : Nat) (d : Definition) :
    Prop where
  file : d.file = file
  first_le : first ≤ d.line
  le_last : d.line ≤ last
  nonempty : d.name ≠ ""
  accepted : (p.nameRule d.kind).accepts d.name.toList = true

/-- The finding, if it is about a bad name, stands in `file` between two of its lines, and the rules
do not accept the name. -/
def Diagnostic.IsPlaced (p : Profile) (file : Path) (first last : Nat) (c : Diagnostic) : Prop :=
  ∀ path line kind name, c = .badName path line kind name →
    path = file ∧ first ≤ line ∧ line ≤ last ∧ (p.nameRule kind).accepts name.toList = false

/-- All that is found stands in `file` between two of its lines. A dangling header has no line of
its own below the first. -/
structure Extraction.IsPlaced (p : Profile) (file : Path) (first last : Nat) (e : Extraction) :
    Prop where
  definitions : ∀ d ∈ e.definitions, d.IsPlaced p file first last
  diagnostics : ∀ c ∈ e.diagnostics, c.IsPlaced p file first last
  dangling : ∀ h ∈ e.dangling, first ≤ h.line

namespace Extraction

variable {p : Profile} {file : Path} {first last line : Nat}

/-- Wider bounds hold too. -/
theorem IsPlaced.mono {e : Extraction} {first' last' : Nat} (h : e.IsPlaced p file first last)
    (hfirst : first' ≤ first) (hlast : last ≤ last') : e.IsPlaced p file first' last' where
  definitions d hd :=
    have hplaced := h.definitions d hd
    { hplaced with
      first_le := hfirst.trans hplaced.first_le
      le_last := hplaced.le_last.trans hlast }
  diagnostics c hc path line kind name heq := by
    obtain ⟨hpath, habove, hbelow, hname⟩ := h.diagnostics c hc path line kind name heq
    exact ⟨hpath, hfirst.trans habove, hbelow.trans hlast, hname⟩
  dangling k hk := hfirst.trans (h.dangling k hk)

theorem isPlaced_concat {es : List Extraction} (h : ∀ e ∈ es, e.IsPlaced p file first last) :
    (concat es).IsPlaced p file first last where
  definitions d hd := by
    rw [definitions_concat, List.mem_flatMap] at hd
    obtain ⟨e, he, hd⟩ := hd
    exact (h e he).definitions d hd
  diagnostics c hc := by
    rw [diagnostics_concat, List.mem_flatMap] at hc
    obtain ⟨e, he, hc⟩ := hc
    exact (h e he).diagnostics c hc
  dangling k hk := by
    obtain ⟨e, he, hk⟩ := exists_of_mem_dangling_concat hk
    exact (h e he).dangling k hk

/-- A name is defined or reported according to the one check that it passes. -/
theorem isPlaced_define (kind : Kind) (name body : List Char) :
    (define p file line kind name body).IsPlaced p file line line := by
  unfold define
  split
  · next hname =>
    refine ⟨fun d hd ↦ ?_, by simp, by simp⟩
    rw [List.mem_singleton.1 hd]
    have hfull : String.ofList name ≠ "" := by
      intro hempty
      exact NameRule.ne_nil_of_accepts hname (String.ofList_eq_empty_iff.1 hempty)
    exact ⟨rfl, Nat.le_refl _, Nat.le_refl _, hfull, by simpa using hname⟩
  · next hname =>
    refine ⟨by simp, fun c hc path line' kind' name' heq ↦ ?_, by simp⟩
    rw [List.mem_singleton.1 hc] at heq
    cases heq
    exact ⟨rfl, Nat.le_refl _, Nat.le_refl _, by simpa using hname⟩

/-- All that a command defines or reports stands on its line. -/
theorem isPlaced_ofCommand (s : Statement) (isLast : Bool) :
    (ofCommand p file s isLast).IsPlaced p file s.line s.line := by
  rcases ofCommand_cases p file s isLast with ⟨proposed, heq⟩ | ⟨-, heq, -⟩ <;> rw [heq]
  · refine isPlaced_concat fun e he ↦ ?_
    obtain ⟨a, -, rfl⟩ := List.mem_map.1 he
    exact isPlaced_define ..
  · exact ⟨by simp, by simp, by simp⟩

/-- All that a text defines stands between its first line and the line of its last visible
character. -/
theorem isPlaced_ofText (text : List Char) (line : Nat) :
    (ofText p file text line).IsPlaced p file line (lineAfter line (trimEnd text)) := by
  induction hlength : text.length using Nat.strong_induction_on generalizing text line with
  | _ length ih =>
    rw [ofText_eq]
    refine isPlaced_concat fun e he ↦ ?_
    obtain ⟨s, hs, rfl⟩ := List.mem_map.1 he
    obtain ⟨front, behind, htext, -, hline⟩ := exists_of_mem_statements hs
    obtain ⟨leading, hcommand, -, hstart⟩ := s.exists_leading p
    obtain ⟨hvisible, htrim⟩ := trim_of_mem_statements hs
    have habove : line ≤ (s.command p).line := by
      rw [hstart, hline]
      exact (Nat.le_add_right ..).trans (Nat.le_add_right ..)
    have hend : lineAfter (s.command p).line (s.command p).text ≤
        lineAfter line (trimEnd text) := by
      calc lineAfter (s.command p).line (s.command p).text
          = lineAfter line (front ++ trimEnd s.text) := by
            rw [htrim, hstart, ← lineAfter_append, ← hcommand, hline, ← lineAfter_append]
        _ ≤ lineAfter line (trimEnd text) := by
            rw [htext]
            exact lineAfter_trimEnd_le line front behind hvisible
    unfold ofStatement
    split
    · next inner hgroup =>
      have hinner : lineAfter (s.command p).line (trimEnd inner) ≤
          lineAfter (s.command p).line (s.command p).text :=
        lineAfter_mono ((trimEnd_isPrefix inner).sublist.trans (sublist_of_braceGroup? hgroup))
      exact (ih _ (hlength ▸ length_lt_of_group hs hgroup) inner _ rfl).mono habove
        (hinner.trans hend)
    · exact (isPlaced_ofCommand _ _).mono habove ((Nat.le_add_right ..).trans hend)

end Extraction

/-! ### The lines of a file -/

/-- The number of physical lines of a text, those behind its last visible character left out. -/
def visibleLines (text : List Char) : Nat :=
  (splitOn '\n' (trimEnd text)).length

theorem visibleLines_eq (text : List Char) : visibleLines text = lineAfter 1 (trimEnd text) := by
  rw [visibleLines, length_splitOn, lineAfter, Nat.add_comm]

/-- The physical line on which the last visible character of a logical line stands. -/
def LogicalLine.lastVisibleLine (l : LogicalLine) : Nat :=
  lineAfter l.line (trimEnd l.text)

/-- A logical line stands in its text. -/
theorem place_of_mem_logicalLines {d : Dialect} {text : List Char} {l : LogicalLine}
    (h : l ∈ logicalLines d.profile text) :
    1 ≤ l.line ∧ l.lastVisibleLine ≤ visibleLines text := by
  obtain ⟨front, run, behind, hstands⟩ := exists_standsAt h
  have htext := hstands.append_eq
  refine ⟨hstands.line_eq ▸ Nat.le_add_right .., ?_⟩
  rw [LogicalLine.lastVisibleLine, hstands.line_eq, ← lineAfter_append, visibleLines_eq, htext]
  exact lineAfter_trimEnd_le 1 _ _ (visible_of_mem_logicalLines h)

/-- Behind a dangling header that ends above it, a line begins with the header and ends where it
ended or further up. -/
theorem LogicalLine.place_behind {p : Profile} {dangling : Option LogicalLine} {l : LogicalLine}
    (visible : isBlank l.text = false) (first : 1 ≤ l.line)
    (above : ∀ h ∈ dangling, 1 ≤ h.line ∧ h.lastLine < l.line) :
    1 ≤ (l.behind p dangling).line ∧
      (l.behind p dangling).lastVisibleLine ≤ l.lastVisibleLine := by
  rcases l.behind_cases p dangling with halone | ⟨h, hh, -, -, hjoined⟩
  · rw [halone]
    exact ⟨first, Nat.le_refl _⟩
  · obtain ⟨hline, habove⟩ := above h hh
    have hfull : trimEnd l.text ≠ [] := by
      rw [ne_eq, trimEnd_eq_nil_iff, visible]
      decide
    have htrim : trimEnd (h.text ++ ' ' :: l.text) = h.text ++ ' ' :: trimEnd l.text := by
      rw [List.append_cons, trimEnd_append hfull, ← List.append_cons]
    have hblank : (' ' == '\n') = false := by decide
    rw [hjoined]
    refine ⟨hline, ?_⟩
    simp only [lastVisibleLine, lastLine, lineAfter, htrim, List.count_append, List.count_cons,
      hblank] at habove ⊢
    simp only [Bool.false_eq_true, if_false]
    omega

namespace Findings

/-- All that a file defines stands in it. -/
structure IsPlaced (p : Profile) (file : Path) (last : Nat) (f : Findings) : Prop where
  definitions : ∀ d ∈ f.definitions, d.IsPlaced p file 1 last
  diagnostics : ∀ c ∈ f.diagnostics, c.IsPlaced p file 1 last

/-- What a line defines stands on it. -/
theorem isPlaced_ofLine (p : Profile) (file : Path) (l : LogicalLine) :
    (Extraction.ofLine p file l).IsPlaced p file l.line l.lastVisibleLine := by
  rcases Extraction.ofLine_cases p file l with h | ⟨t, -, h⟩ <;> rw [h]
  · exact Extraction.isPlaced_ofText l.text l.line
  · exact ⟨by simp, by simp [Diagnostic.IsPlaced], by simp⟩

/-- Lines that stand one below the other define what stands above the end of the last. The dangling
header stays above the lines that are still to come. -/
theorem isPlaced_ofLines {p : Profile} {file : Path} {last : Nat} {dangling : Option LogicalLine}
    {ls : List LogicalLine} (downwards : ls.Pairwise fun k l ↦ k.lastLine < l.line)
    (above : ∀ h ∈ dangling, 1 ≤ h.line ∧ ∀ l ∈ ls, h.lastLine < l.line)
    (inside : ∀ l ∈ ls, isBlank l.text = false ∧ 1 ≤ l.line ∧ l.lastVisibleLine ≤ last) :
    (ofLines p file dangling ls).IsPlaced p file last := by
  induction ls generalizing dangling with
  | nil => exact ⟨by simp [ofLines], by simp [ofLines]⟩
  | cons l ls ih =>
    obtain ⟨hvisible, hfirst, hlast⟩ := inside l List.mem_cons_self
    have habove : ∀ h ∈ dangling, 1 ≤ h.line ∧ h.lastLine < l.line := fun h hh ↦
      ⟨(above h hh).1, (above h hh).2 l List.mem_cons_self⟩
    obtain ⟨hbegins, hends⟩ := LogicalLine.place_behind hvisible hfirst habove (p := p)
    have hline := (isPlaced_ofLine p file (l.behind p dangling)).mono hbegins (hends.trans hlast)
    rw [List.pairwise_cons] at downwards
    have hnext : ∀ h ∈ (Extraction.ofLine p file (l.behind p dangling)).dangling,
        1 ≤ h.line ∧ ∀ k ∈ ls, h.lastLine < k.line := by
      refine fun h hh ↦ ⟨hline.dangling h hh, fun k hk ↦ ?_⟩
      calc h.lastLine
          ≤ (l.behind p dangling).lastLine := Extraction.lastLine_of_dangling_ofLine hh
        _ ≤ l.lastLine := LogicalLine.lastLine_behind_le fun h hh ↦ (habove h hh).2
        _ < k.line := downwards.1 k hk
    have hothers := ih downwards.2 hnext fun k hk ↦ inside k (List.mem_cons_of_mem _ hk)
    refine ⟨fun d hd ↦ ?_, fun c hc ↦ ?_⟩
    · exact (List.mem_append.1 hd).elim (hline.definitions d) (hothers.definitions d)
    · exact (List.mem_append.1 hc).elim (hline.diagnostics c) (hothers.diagnostics c)

/-- All that a file of a known dialect defines stands in it. -/
theorem isPlaced_ofSource (d : Dialect) (s : Source) :
    (ofSource d.profile s).IsPlaced d.profile s.path (visibleLines s.text) :=
  isPlaced_ofLines (pairwise_logicalLines d.profile s.text) (by simp) fun _ hl ↦
    ⟨visible_of_mem_logicalLines hl, place_of_mem_logicalLines hl⟩

end Findings

/-! ### The report on a scan -/

/-- Every definition of the report and every bad name that it reports stands in a scanned file,
under the rules of the dialect that was chosen for this file. -/
structure Report.IsPlaced (dialect : Option Dialect) (sources : List Source) (r : Report) :
    Prop where
  /-- Every definition, live or shadowed, has a name that the rules accept. -/
  definitions : ∀ e ∈ r.inventory.entries, ∀ d ∈ e.history, ∃ s ∈ sources, ∃ chosen,
    dialect.or s.dialect? = some chosen ∧
      d.IsPlaced chosen.profile s.path 1 (visibleLines s.text)
  /-- Every bad name is one that they do not accept. -/
  badNames : ∀ path line kind name, .badName path line kind name ∈ r.diagnostics →
    ∃ s ∈ sources, ∃ chosen, dialect.or s.dialect? = some chosen ∧ path = s.path ∧ 1 ≤ line ∧
      line ≤ visibleLines s.text ∧
      (chosen.profile.nameRule kind).accepts name.toList = false

/-- A file adds to a report what it defines under its dialect, or that it has none. -/
theorem Source.findings_outcome (opts : ScanOptions) (s : Source) :
    (∃ d, opts.dialect.or s.dialect? = some d ∧
        (s.outcome opts).findings = .ofSource d.profile s) ∨
      (s.outcome opts).findings = ⟨[], [.unknownDialect s.path]⟩ := by
  simp only [Outcome.findings, Source.outcome, Source.findings]
  cases opts.dialect.or s.dialect? with
  | none => exact .inr rfl
  | some d => exact .inl ⟨d, rfl, rfl⟩

/-- A report on some of the files, in any order. -/
theorem Report.isPlaced_ofMerged {opts : ScanOptions} {sources merged : List Source} (given : Nat)
    (scanned : ∀ s ∈ merged, s ∈ sources) :
    (ofMerged given (merged.map (Source.outcome opts))).IsPlaced opts.dialect sources := by
  rw [ofMerged, foldl_merge]
  refine ⟨fun e he d hd ↦ ?_, fun path line kind name hc ↦ ?_⟩
  · rw [Inventory.history_of_mem_entries _ he] at hd
    obtain ⟨hd, -⟩ := List.mem_filter.1 hd
    rw [List.flatMap_map, List.mem_flatMap] at hd
    obtain ⟨s, hs, hd⟩ := hd
    rcases s.findings_outcome opts with ⟨chosen, hchosen, hfindings⟩ | hfindings
    · rw [hfindings] at hd
      exact ⟨s, scanned s hs, chosen, hchosen,
        (Findings.isPlaced_ofSource chosen s).definitions d hd⟩
    · simp [hfindings] at hd
  · have hmem : .badName path line kind name ∈
        (merged.map (Source.outcome opts)).flatMap fun o ↦ o.findings.diagnostics := hc
    rw [List.flatMap_map, List.mem_flatMap] at hmem
    obtain ⟨s, hs, hc⟩ := hmem
    rcases s.findings_outcome opts with ⟨chosen, hchosen, hfindings⟩ | hfindings
    · rw [hfindings] at hc
      have hplaced := (Findings.isPlaced_ofSource chosen s).diagnostics _ hc
      exact ⟨s, scanned s hs, chosen, hchosen, hplaced path line kind name rfl⟩
    · simp [hfindings] at hc

/-- Every definition and every bad name in the report on a scan is well placed, whatever the files,
the order of merging and the dialect that is given for all of them, and however many files were
merged when the scan was called off. -/
theorem report_isPlaced (opts : ScanOptions) (sources : List Source) :
    (Report.ofSources opts sources).IsPlaced opts.dialect sources ∧
      ∀ count, (Report.ofMerged sources.length
          (((opts.order.arrange Source.path sources).take count).map
            (Source.outcome opts))).IsPlaced opts.dialect sources := by
  have hscanned : ∀ s ∈ opts.order.arrange Source.path sources, s ∈ sources := fun s hs ↦
    (perm_arrange opts.order Source.path sources).subset hs
  refine ⟨?_, fun count ↦ Report.isPlaced_ofMerged _ fun s hs ↦
    hscanned s (List.mem_of_mem_take hs)⟩
  unfold Report.ofSources Report.ofFiles
  cases opts.cancelled with
  | true => exact Report.isPlaced_ofMerged _ (by simp : ∀ s ∈ ([] : List Source), s ∈ sources)
  | false => exact Report.isPlaced_ofMerged _ hscanned

-- The alias stands on the second line, and is reported on the first, where the header stands.
example : visibleLines "f()\n\x7b :; \x7d; alias a/b=1\n\n".toList = 2 ∧
    Findings.ofSource .bash ⟨⟨"rc"⟩, "f()\n\x7b :; \x7d; alias a/b=1\n\n".toList⟩ =
      ⟨[⟨"f", .function, ":;", ⟨"rc"⟩, 1⟩], [.badName ⟨"rc"⟩ 1 .alias "a/b"]⟩ := by decide +kernel

end ShellCatalog
