import ShellCatalog.Proofs.PathOrder

/-!
# What a scan reports

A scan that is not called off reports on every file, and what it reports on one does not depend on
the others: the inventory is that of all definitions, file after file in the order of merging, and
the diagnostics stand in the same order. A file that cannot be read, or whose dialect nothing tells,
costs one diagnostic and moves nothing else.

**Merging adds the findings of an outcome** (`Report.merge_eq`), whether or not the file could be
read, so a whole scan is one list of findings (`Report.foldl_merge`). The rest is the order of the
files: paths and the files that stand at them are put in the same order, and in the order of paths a
scan does not depend on how its files were listed.
-/

namespace ShellCatalog

/-! ### The findings of one file -/

/-- What an outcome adds to a report. -/
def Outcome.findings (o : Outcome) : Findings :=
  match o.result with
  | .ok e => e
  | .error d => ⟨[], [d]⟩

/-- The path leads to bytes that can be read. -/
def FileContents.isReadable (contents : FileContents) (p : Path) : Bool :=
  (contents p).isOk

/-- What there is to say of the file at a path: that it cannot be read, that nothing tells its
dialect, or what it defines. -/
def Path.findings (dialect : Option Dialect) (contents : FileContents) (p : Path) : Findings :=
  match contents p with
  | .error cause => ⟨[], [.unreadable p cause]⟩
  | .ok bytes =>
    let file := Source.ofText p (decodeBytes bytes)
    match dialect.or file.dialect? with
    | none => ⟨[], [.unknownDialect p]⟩
    | some d => .ofSource d.profile file

section Outcomes

variable {opts : ScanOptions} {contents : FileContents} {p : Path}

theorem Path.read_outcome : (p.outcome opts contents).read = contents.isReadable p := by
  unfold Path.outcome FileContents.isReadable
  cases contents p <;> rfl

theorem Path.findings_outcome :
    (p.outcome opts contents).findings = p.findings opts.dialect contents := by
  unfold Path.outcome Path.findings
  cases contents p with
  | error cause => rfl
  | ok bytes =>
    simp only [Source.outcome, Source.findings, Outcome.findings]
    cases opts.dialect.or (Source.ofText p (decodeBytes bytes)).dialect? <;> rfl

/-- A path that can be read has the outcome of the file that holds its bytes. -/
theorem Path.outcome_of_readable {bytes : List UInt8} (h : contents p = .ok bytes) :
    p.outcome opts contents = (Source.ofText p (decodeBytes bytes)).outcome opts := by
  rw [Path.outcome, h]

end Outcomes

/-! ### The findings of a scan -/

namespace Report

/-- Merging an outcome adds its findings and counts the file if it was read. -/
theorem merge_eq (r : Report) (o : Outcome) :
    r.merge o =
      { r with
        inventory := r.inventory.extend o.findings.definitions
        diagnostics := r.diagnostics ++ o.findings.diagnostics
        filesRead := r.filesRead + if o.read then 1 else 0 } := by
  unfold merge Outcome.findings
  cases o.read <;> cases o.result <;> rfl

/-- Merging outcomes one after the other adds all their findings. -/
theorem foldl_merge (r : Report) (outcomes : List Outcome) :
    outcomes.foldl merge r =
      { r with
        inventory := r.inventory.extend (outcomes.flatMap fun o ↦ o.findings.definitions)
        diagnostics := r.diagnostics ++ outcomes.flatMap fun o ↦ o.findings.diagnostics
        filesRead := r.filesRead + outcomes.countP Outcome.read } := by
  induction outcomes generalizing r with
  | nil => simp
  | cons o outcomes ih =>
    rw [List.foldl_cons, ih, merge_eq, List.flatMap_cons, List.flatMap_cons, List.countP_cons,
      Inventory.extend_append]
    simp only [List.append_assoc, Nat.add_assoc, Nat.add_comm]

/-- The report on files that are all merged. -/
theorem ofFiles_eq {α : Type} {opts : ScanOptions} (on : opts.cancelled = false) (path : α → Path)
    (outcome : α → Outcome) (files : List α) :
    ofFiles opts path outcome files =
      { inventory := .ofList ((opts.order.arrange path files).flatMap fun a ↦
          (outcome a).findings.definitions)
        diagnostics := (opts.order.arrange path files).flatMap fun a ↦
          (outcome a).findings.diagnostics
        filesRead := files.countP fun a ↦ (outcome a).read
        filesGiven := files.length
        cancelled := false } := by
  have hperm := perm_arrange opts.order path files
  have hread : ((opts.order.arrange path files).map outcome).countP Outcome.read =
      files.countP fun a ↦ (outcome a).read := by
    rw [List.countP_map]
    exact hperm.countP_eq _
  simp only [ofFiles, on, ofMerged, foldl_merge, start, hread, hperm.length_eq, List.length_map,
    List.flatMap_map, List.nil_append, Nat.zero_add, Nat.lt_irrefl, decide_false, if_false,
    Bool.false_eq_true, Inventory.ofList]

/-- Files that are given in another way are reported on in the same way, when their paths and their
outcomes are the same. -/
theorem ofFiles_map {α β : Type} (opts : ScanOptions) (path : α → Path) (path' : β → Path)
    {outcome : α → Outcome} {outcome' : β → Outcome} {files : List α} (f : α → β)
    (samePath : ∀ a ∈ files, path' (f a) = path a)
    (sameOutcome : ∀ a ∈ files, outcome' (f a) = outcome a) :
    ofFiles opts path' outcome' (files.map f) = ofFiles opts path outcome files := by
  have houtcomes : ((opts.order.arrange path files).map f).map outcome' =
      (opts.order.arrange path files).map outcome := by
    rw [List.map_map]
    exact List.map_congr_left fun a ha ↦
      sameOutcome a ((perm_arrange opts.order path files).subset ha)
  simp only [ofFiles, ← map_arrange opts.order f samePath, houtcomes, List.length_map]

end Report

/-- A scan of paths that is not called off fails exactly when none of them can be read. Otherwise it
reports on every one of them, in the order in which files are merged: all that they define, all that
there is to say of them, and how many could be read. Where all can be read, that is the report on
the files that hold their bytes. -/
theorem report_ofPaths {opts : ScanOptions} (on : opts.cancelled = false) (contents : FileContents)
    (paths : List Path) :
    ((∃ failure, Report.ofPaths opts contents paths = .error failure) ↔
      ∀ p ∈ paths, contents.isReadable p = false) ∧
    ((∃ p ∈ paths, contents.isReadable p = true) →
      ∃ ordered, opts.order.Arranges id paths ordered ∧
        Report.ofPaths opts contents paths =
          .ok
            { inventory := .ofList (ordered.flatMap fun p ↦
                (p.findings opts.dialect contents).definitions)
              diagnostics := ordered.flatMap fun p ↦ (p.findings opts.dialect contents).diagnostics
              filesRead := paths.countP contents.isReadable
              filesGiven := paths.length
              cancelled := false }) ∧
    (∀ bytes : Path → List UInt8, paths ≠ [] → (∀ p ∈ paths, contents p = .ok (bytes p)) →
      Report.ofPaths opts contents paths =
        .ok (.ofSources opts (paths.map fun p ↦ .ofText p (decodeBytes (bytes p))))) := by
  have hreport := Report.ofFiles_eq on id (Path.outcome opts contents) paths
  simp only [Path.read_outcome, Path.findings_outcome] at hreport
  have hok : (∃ p ∈ paths, contents.isReadable p = true) →
      Report.ofPaths opts contents paths =
        .ok (.ofFiles opts id (Path.outcome opts contents) paths) := by
    rintro ⟨p, hp, hread⟩
    have hpos := List.countP_pos_iff.2 ⟨p, hp, hread⟩
    rw [Report.ofPaths, if_neg]
    rw [hreport]
    exact fun h ↦ absurd h.1 (Nat.pos_iff_ne_zero.1 hpos)
  refine ⟨⟨?_, fun hnone ↦ ?_⟩, fun hsome ↦ ?_, fun bytes hne hbytes ↦ ?_⟩
  · rintro ⟨failure, hfailure⟩ p hp
    by_contra hread
    rw [hok ⟨p, hp, by simpa using hread⟩] at hfailure
    cases hfailure
  · have hzero : paths.countP contents.isReadable = 0 :=
      List.countP_eq_zero.2 fun p hp ↦ by simp [hnone p hp]
    rw [Report.ofPaths, if_pos]
    · exact ⟨_, rfl⟩
    · rw [hreport]
      exact ⟨hzero, by simp⟩
  · exact ⟨_, arranges_arrange .., by rw [hok hsome, hreport]⟩
  · obtain ⟨p, hp⟩ := List.exists_mem_of_ne_nil paths hne
    have hread : contents.isReadable p = true := by
      rw [FileContents.isReadable, hbytes p hp]
      rfl
    have houtcome : ∀ p ∈ paths, (Source.ofText p (decodeBytes (bytes p))).outcome opts =
        p.outcome opts contents := fun p hp ↦ (Path.outcome_of_readable (hbytes p hp)).symm
    rw [hok ⟨p, hp, hread⟩, Report.ofSources,
      Report.ofFiles_map opts id Source.path _ (fun _ _ ↦ rfl) houtcome]

/-- Files in a tree: two that define the same alias, one of which breaks off, one of no dialect. -/
def sampleContents : FileContents := fun p ↦
  if p.text = "rc/a.sh" then .ok ("alias x=1\n'".toList.map fun c ↦ .ofNat c.toNat)
  else if p.text = "rc/b.sh" then .ok ("alias x=2\n".toList.map fun c ↦ .ofNat c.toNat)
  else if p.text = "rc/notes" then .ok []
  else .error .notFound

/-- Files that cannot be read, break off or have no dialect leave the others as they are. -/
theorem report_ofPaths_of_mixed :
    Report.ofPaths ⟨none, .byPath, false⟩ sampleContents
        [⟨"rc/notes"⟩, ⟨"rc/b.sh"⟩, ⟨"rc/gone.sh"⟩, ⟨"rc/a.sh"⟩] =
      .ok
        { inventory := .ofList
            [⟨"x", .alias, "1", ⟨"rc/a.sh"⟩, 1⟩, ⟨"x", .alias, "2", ⟨"rc/b.sh"⟩, 1⟩]
          diagnostics :=
            [.unterminated ⟨"rc/a.sh"⟩ ⟨.singleQuote, 2⟩, .unreadable ⟨"rc/gone.sh"⟩ .notFound,
              .unknownDialect ⟨"rc/notes"⟩]
          filesRead := 3
          filesGiven := 4
          cancelled := false } := by
  obtain ⟨-, hsome, -⟩ := @report_ofPaths ⟨none, .byPath, false⟩ rfl sampleContents
    [⟨"rc/notes"⟩, ⟨"rc/b.sh"⟩, ⟨"rc/gone.sh"⟩, ⟨"rc/a.sh"⟩]
  obtain ⟨ordered, harranges, hreport⟩ := hsome ⟨⟨"rc/a.sh"⟩, by decide, by decide +kernel⟩
  have hordered : [⟨"rc/a.sh"⟩, ⟨"rc/b.sh"⟩, ⟨"rc/gone.sh"⟩, ⟨"rc/notes"⟩] = ordered :=
    @eq_of_perm_of_pairwise_le _ id _ _
      ((List.isPerm_iff.1 (by decide)).trans harranges.perm.symm) (by decide +kernel)
      (by decide +kernel) harranges.pairwise
  rw [hreport, ← hordered]
  decide +kernel

/-- In the order of paths a scan reports the same however its files were listed, when no two of
their paths are spellings of one another. -/
theorem report_ofSources_perm {opts : ScanOptions} (byPath : opts.order = .byPath)
    {sources sources' : List Source} (perm : sources.Perm sources')
    (distinct : (sources.map fun s ↦ s.path.components).Nodup) :
    Report.ofSources opts sources = Report.ofSources opts sources' := by
  have harrange := arrange_byPath_of_perm perm distinct
  rw [← byPath] at harrange
  simp only [Report.ofSources, Report.ofFiles, harrange]

/-- Two spellings of one directory, and files that define the same names. -/
theorem report_ofSources_perm_of_two :
    Report.ofSources ⟨some .sh, .byPath, false⟩
        [⟨⟨"rc//b"⟩, "alias x=1\nalias y=1\n".toList⟩, ⟨⟨"rc/./a"⟩, "alias y=2\n".toList⟩] =
      Report.ofSources ⟨some .sh, .byPath, false⟩
        [⟨⟨"rc/./a"⟩, "alias y=2\n".toList⟩, ⟨⟨"rc//b"⟩, "alias x=1\nalias y=1\n".toList⟩] :=
  report_ofSources_perm rfl (.swap ..) (by decide +kernel)

end ShellCatalog
