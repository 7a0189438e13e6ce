import ShellCatalog.Dialect.Detect
import ShellCatalog.Extraction

/-!
# What a file defines

The logical lines of a file are taken in order, and each is read on its own. There is one exception:
a header may end its line without a body, and then it **dangles**.

* `LogicalLine.behind` is a line as it is read behind a dangling header. If the line opens a body,
  the two are joined, and the joined line counts as starting where the header stands. Whatever
  follows the body on its line is counted from there as well. Otherwise the line is read as it
  stands (`LogicalLine.behind_cases`).
* `Findings.ofLines` carries the dangling header from one line to the next, and no further: a line
  that is not joined to a header leaves it behind for good.
* A line that the end of the file leaves open is never joined (`LogicalLine.behind_of_leftOpen`).
  Only the last line can be left open, so nothing is found behind it, and it is reported.

Where no line leaves a header dangling, the findings are those of the lines one after the other
(`Findings.ofLines_of_forall`).
-/

namespace ShellCatalog

/-- Everything that a file defines and everything there is to report about it, in the order of the
file. -/
structure Findings where
  definitions : List Definition
  diagnostics : List Diagnostic
  deriving DecidableEq, Repr

/-- The line begins with a body. -/
def LogicalLine.beginsBody (p : Profile) (l : LogicalLine) : Bool :=
  (trimStart l.text).head?.any p.beginsBody

/-- The line as it is read behind a dangling header: it counts as starting where the header stands.
Where it ends is not handed on, since nothing that is found depends on it. -/
def LogicalLine.behind (p : Profile) (header : Option LogicalLine) (l : LogicalLine) :
    LogicalLine :=
  match header with
  | some h =>
    if !l.isOpen && l.beginsBody p then ⟨h.text ++ ' ' :: l.text, h.line, none⟩ else l
  | none => l

/-- A line is read as it stands, or it opens a body and is joined to the header in front of it. -/
theorem LogicalLine.behind_cases (p : Profile) (header : Option LogicalLine) (l : LogicalLine) :
    l.behind p header = l ∨
      ∃ h, header = some h ∧ l.isOpen = false ∧ l.beginsBody p = true ∧
        l.behind p header = ⟨h.text ++ ' ' :: l.text, h.line, none⟩ := by
  cases header with
  | none => exact .inl rfl
  | some h =>
    unfold behind
    dsimp only
    split
    · next hbody =>
      rw [Bool.and_eq_true, Bool.not_eq_true'] at hbody
      exact .inr ⟨h, rfl, hbody.1, hbody.2, rfl⟩
    · exact .inl rfl

/-- A line that is left open is never joined. -/
theorem LogicalLine.behind_of_leftOpen {l : LogicalLine} {t : OpenConstruct} (p : Profile)
    (header : Option LogicalLine) (isOpen : l.leftOpen = some t) : l.behind p header = l := by
  rcases l.behind_cases p header with h | ⟨_, -, hcomplete, -, -⟩
  · exact h
  · simp [LogicalLine.isOpen, isOpen] at hcomplete

/-- What a sequence of logical lines defines, the first of which follows `dangling`. -/
def Findings.ofLines (p : Profile) (file : Path) (dangling : Option LogicalLine) :
    List LogicalLine → Findings
  | [] => ⟨[], []⟩
  | l :: rest =>
    let e := Extraction.ofLine p file (l.behind p dangling)
    let others := Findings.ofLines p file e.dangling rest
    ⟨e.definitions ++ others.definitions, e.diagnostics ++ others.diagnostics⟩

/-- Lines that leave no header dangling are read one by one. -/
theorem Findings.ofLines_of_forall {p : Profile} {file : Path} {ls : List LogicalLine}
    (h : ∀ l ∈ ls, (Extraction.ofLine p file l).dangling = none) :
    ofLines p file none ls =
      ⟨ls.flatMap fun l ↦ (Extraction.ofLine p file l).definitions,
        ls.flatMap fun l ↦ (Extraction.ofLine p file l).diagnostics⟩ := by
  induction ls with
  | nil => rfl
  | cons l ls ih =>
    have hl : l.behind p none = l := rfl
    rw [ofLines, hl, h l List.mem_cons_self, ih fun k hk ↦ h k (List.mem_cons_of_mem _ hk)]
    rfl

/-- What a file of a known dialect defines. -/
def Findings.ofSource (p : Profile) (s : Source) : Findings :=
  Findings.ofLines p s.path none (logicalLines p s.text)

/-- What a file defines whose dialect is `dialect` or, without it, the detected one. -/
def Source.findings (dialect : Option Dialect) (s : Source) : Except Diagnostic Findings :=
  match dialect.or s.dialect? with
  | some d => .ok (Findings.ofSource d.profile s)
  | none => .error (.unknownDialect s.path)

end ShellCatalog
