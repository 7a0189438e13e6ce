import ShellCatalog.Proofs.BodyMate
import ShellCatalog.Proofs.CutFile
import ShellCatalog.Proofs.StatementTiling

/-!
# Commands in brace groups

A brace group is a text within a text, and its inside is read on its own, from the line of the group
on. `commands` lists the commands that are read in this way, in whatever depth of groups, with the
place of each in the outermost text.

**Places add up** (`exists_of_mem_commands`): what stands in front of a statement, the leading parts
that are dropped from it and the opening brace of a group are parts of one text, so the newlines
that are counted at every depth are those in front of the command in the whole text.

**A text defines what its commands define** (`Extraction.ofText_eq_commands`), and a command defines
everything on its own line. So everything that a logical line defines or reports carries the line on
which its command begins (`lines_of_commands`).
-/

namespace ShellCatalog

/-! ### The inside of a brace group -/

/-- A brace group is an opening brace, its inside, which begins at the second byte, and at least one
character more. In a dialect this character is the closing brace. -/
theorem exists_of_braceGroup? {p : Profile} {group inner : List Char}
    (h : braceGroup? p group = some inner) :
    ∃ closing rest, group = '{' :: (inner ++ closing :: rest) ∧
      Body.ofText p group = .block inner 1 ∧ ∀ d : Dialect, p = d.profile → closing = '}' := by
  obtain ⟨-, hbrace, offset, hbody⟩ := braceGroup?_eq_some_iff.1 h
  obtain ⟨rest, rfl⟩ := List.head?_eq_some_iff.1 hbrace
  obtain ⟨hoffset, c, more, htrim, -, opening, run, closing, others, hmarks, rfl, hrun, hclosing⟩ :=
    Body.ofText_eq_block_iff.1 hbody
  rw [trimStart_cons rest (by decide)] at htrim
  obtain ⟨rfl, rfl⟩ := List.cons.inj htrim
  have htext := congrArg Mark.text hmarks
  rw [text_marks] at htext
  obtain ⟨-, rfl⟩ := List.cons.inj htext
  refine ⟨closing.char, Mark.text others, by simp [Mark.text], by rw [hbody, hoffset]; rfl, ?_⟩
  rintro d rfl
  exact (Body.isMated_of_marks (b := .brace) hmarks hrun hclosing).closer.2

/-! ### What a command defines -/

namespace Extraction

variable {p : Profile} {file : Path}

/-- What a command defines is what some names with their bodies define on its line, or it is a
header without a body that dangles. -/
theorem ofCommand_cases (p : Profile) (file : Path) (s : Statement) (isLast : Bool) :
    (∃ proposed : List (Kind × List Char × List Char), ofCommand p file s isLast =
      concat (proposed.map fun a ↦ define p file s.line a.1 a.2.1 a.2.2)) ∨
    isLast = true ∧ ofCommand p file s isLast = ⟨[], [], some ⟨s.text, s.line, none⟩⟩ ∧
      ∃ header, p.header? s.text = some header := by
  unfold ofCommand
  split
  · next proposed _ =>
    refine .inl ⟨proposed.map fun a ↦ (.alias, a.name, a.body), ?_⟩
    rw [List.map_map]
    rfl
  · split
    · next header heq =>
      unfold ofFunction
      split
      · exact .inl ⟨[(.function, _, _)], (append_empty _).symm⟩
      · cases isLast with
        | true => exact .inr ⟨rfl, rfl, header, heq⟩
        | false => exact .inl ⟨[], rfl⟩
      · exact .inl ⟨[], rfl⟩
    · exact .inl ⟨[], rfl⟩

/-- A name with a body is defined on its line or reported there. -/
theorem define_cases (p : Profile) (file : Path) (line : Nat) (kind : Kind)
    (name body : List Char) :
    define p file line kind name body =
        ⟨[⟨.ofList name, kind, .ofList body, file, line⟩], [], none⟩ ∨
      define p file line kind name body =
        ⟨[], [.badName file line kind (.ofList name)], none⟩ := by
  unfold define
  split
  · exact .inl rfl
  · exact .inr rfl

/-- A command defines everything on its own line, and reports nothing but bad names there. -/
theorem line_of_ofCommand (s : Statement) (isLast : Bool) :
    (∀ d ∈ (ofCommand p file s isLast).definitions, d.line = s.line) ∧
      ∀ n ∈ (ofCommand p file s isLast).diagnostics,
        ∃ kind name, n = .badName file s.line kind name := by
  rcases ofCommand_cases p file s isLast with ⟨proposed, heq⟩ | ⟨-, heq, -⟩
  · rw [heq, definitions_concat, diagnostics_concat, List.flatMap_map, List.flatMap_map]
    refine ⟨fun d hd ↦ ?_, fun n hn ↦ ?_⟩
    · obtain ⟨a, -, hd⟩ := List.mem_flatMap.1 hd
      rcases define_cases p file s.line a.1 a.2.1 a.2.2 with h | h <;> rw [h] at hd
      · rw [List.mem_singleton.1 hd]
      · simp at hd
    · obtain ⟨a, -, hn⟩ := List.mem_flatMap.1 hn
      rcases define_cases p file s.line a.1 a.2.1 a.2.2 with h | h <;> rw [h] at hn
      · simp at hn
      · exact ⟨a.1, _, List.mem_singleton.1 hn⟩
  · rw [heq]
    exact ⟨by simp, by simp⟩

end Extraction

/-! ### Commands -/

/-- A command, found in a text at some depth of brace groups. -/
structure Command where
  /-- The command itself, with its place in the whole text. -/
  statement : Statement
  /-- No statement follows it in the innermost group around it. -/
  isLast : Bool
  /-- The number of groups around it. -/
  groups : Nat
  deriving DecidableEq, Repr

/-- The command in a text that holds its text as the inside of a group, which opens at byte
`start`. -/
def Command.inGroup (start : Nat) (c : Command) : Command :=
  { c with
    statement := { c.statement with offset := start + 1 + c.statement.offset }
    groups := c.groups + 1 }

/-- The commands of a text that starts on physical line `line`, at every depth of groups. -/
def commands (p : Profile) (text : List Char) (line : Nat := 1) : List Command :=
  (statements p text line).attach.flatMap fun ⟨s, _hs⟩ ↦
    match _h : braceGroup? p (s.command p).text with
    | some inner => (commands p inner (s.command p).line).map (.inGroup (s.command p).offset)
    | none => [⟨s.command p, (statements p text line).getLast? = some s, 0⟩]
termination_by text.length
decreasing_by exact Extraction.length_lt_of_group _hs _h

/-- The commands of one statement of a text. -/
def Statement.commands (p : Profile) (s : Statement) (isLast : Bool) : List Command :=
  match braceGroup? p (s.command p).text with
  | some inner =>
    (ShellCatalog.commands p inner (s.command p).line).map (.inGroup (s.command p).offset)
  | none => [⟨s.command p, isLast, 0⟩]

section Commands

variable {p : Profile} {file : Path} {text : List Char} {line : Nat} {c : Command}

/-- The commands of a statement are its own or, of a brace group, those of the inside. -/
theorem Statement.mem_commands_iff {s : Statement} {isLast : Bool} :
    c ∈ s.commands p isLast ↔
      braceGroup? p (s.command p).text = none ∧ c = ⟨s.command p, isLast, 0⟩ ∨
        ∃ inner, braceGroup? p (s.command p).text = some inner ∧
          ∃ b ∈ ShellCatalog.commands p inner (s.command p).line,
            c = b.inGroup (s.command p).offset := by
  rw [commands]
  cases braceGroup? p (s.command p).text with
  | none => simp
  | some inner => simp [eq_comm]

/-- The commands of a text are those of its statements, one after the other. -/
theorem commands_eq (p : Profile) (text : List Char) (line : Nat) :
    commands p text line = (statements p text line).flatMap fun s ↦
      s.commands p ((statements p text line).getLast? = some s) := by
  rw [commands, List.flatMap_def, List.flatMap_def]
  refine congrArg _ (Eq.trans (List.map_congr_left fun ⟨s, hs⟩ _ ↦ ?_) List.attach_map_val)
  simp only [Statement.commands]
  split
  · next heq => rw [heq]
  · next heq => rw [heq]

/-- A command of a text is a statement without its leading parts, or a command of the inside of such
a statement. -/
theorem commands_induction {motive : List Char → Nat → Command → Prop}
    (leaf : ∀ {text line s}, s ∈ statements p text line →
      braceGroup? p (s.command p).text = none →
      motive text line ⟨s.command p, (statements p text line).getLast? = some s, 0⟩)
    (group : ∀ {text line s inner c}, s ∈ statements p text line →
      braceGroup? p (s.command p).text = some inner → c ∈ commands p inner (s.command p).line →
      motive inner (s.command p).line c → motive text line (c.inGroup (s.command p).offset))
    (hc : c ∈ commands p text line) : motive text line c := by
  induction hlength : text.length using Nat.strong_induction_on generalizing text line c with
  | _ length ih =>
    rw [commands_eq, List.mem_flatMap] at hc
    obtain ⟨s, hs, hc⟩ := hc
    rcases Statement.mem_commands_iff.1 hc with ⟨hnone, rfl⟩ | ⟨inner, hinner, b, hb, rfl⟩
    · exact leaf hs hnone
    · exact group hs hinner hb (ih _ (hlength ▸ Extraction.length_lt_of_group hs hinner) hb rfl)

/-- What a command defines. -/
def Command.extraction (p : Profile) (file : Path) (c : Command) : Extraction :=
  .ofCommand p file c.statement c.isLast

theorem Extraction.concat_flatMap {α : Type} (as : List α) (f : α → List Extraction) :
    concat (as.flatMap f) = concat (as.map fun a ↦ concat (f a)) := by
  induction as with
  | nil => rfl
  | cons a as ih =>
    rw [List.flatMap_cons, concat_append, ih]
    rfl

/-- A text defines what its commands define, one after the other. -/
theorem Extraction.ofText_eq_commands (p : Profile) (file : Path) (text : List Char) (line : Nat) :
    ofText p file text line = .concat ((commands p text line).map (Command.extraction p file)) := by
  induction hlength : text.length using Nat.strong_induction_on generalizing text line with
  | _ length ih =>
    rw [ofText_eq, commands_eq, List.map_flatMap, concat_flatMap]
    refine congrArg concat (List.map_congr_left fun s hs ↦ ?_)
    rw [ofStatement, Statement.commands]
    cases hinner : braceGroup? p (s.command p).text with
    | some inner =>
      dsimp only
      rw [ih _ (hlength ▸ length_lt_of_group hs hinner) inner _ rfl, List.map_map]
      rfl
    | none => exact (append_empty _).symm

/-! ### Where a command stands -/

/-- The statement stands in a text between `front` and `behind`, begins with a visible character
and knows where it starts. -/
structure Statement.StandsBetween (text : List Char) (line : Nat) (s : Statement)
    (front behind : List Char) : Prop where
  text_eq : text = front ++ s.text ++ behind
  offset_eq : s.offset = byteLength front
  line_eq : s.line = lineAfter line front
  begins : ∀ c ∈ s.text.head?, isSpace c = false

theorem isSpace_of_head?_dropLeading {text : List Char}
    (visible : ∀ c ∈ text.head?, isSpace c = false) :
    ∀ c ∈ (dropLeading p text).head?, isSpace c = false := by
  fun_induction dropLeading p text with
  | case1 text rest _ ih => exact ih fun c hc ↦ head?_trimStart hc
  | case2 => exact visible

theorem Statement.StandsAt.standsBetween {s : Statement} {front body behind : List Mark}
    (h : s.StandsAt p text line front body behind) :
    s.StandsBetween text line (Mark.text front) (Mark.text behind) where
  text_eq := h.append_eq
  offset_eq := h.offset_eq
  line_eq := h.line_eq
  begins := by
    obtain ⟨m, rest, rfl, hvisible⟩ := h.begins
    rw [h.text_eq]
    simp [Mark.text, hvisible]

/-- The command of a statement stands behind its leading parts, and ends where it does. -/
theorem Statement.StandsBetween.command {s : Statement} {front behind : List Char}
    (h : s.StandsBetween text line front behind) :
    ∃ leading, s.text = leading ++ (s.command p).text ∧
      (s.command p).StandsBetween text line (front ++ leading) behind := by
  obtain ⟨leading, hcommand, hstart, hstartLine⟩ := s.exists_leading p
  refine ⟨leading, hcommand, ⟨?_, ?_, ?_, ?_⟩⟩
  · rw [h.text_eq, hcommand]
    simp
  · rw [hstart, h.offset_eq, byteLength_append]
  · rw [hstartLine, h.line_eq, lineAfter_append]
  · exact isSpace_of_head?_dropLeading h.begins

theorem Statement.exists_command_standsBetween {s : Statement} (hs : s ∈ statements p text line) :
    ∃ front behind, (s.command p).StandsBetween text line front behind ∧
      s.offset ≤ (s.command p).offset ∧
      (s.command p).offset + byteLength (s.command p).text = s.offset + byteLength s.text := by
  obtain ⟨front, body, behind, hs⟩ := s.exists_standsAt hs
  obtain ⟨leading, hcommand, hstands⟩ := hs.standsBetween.command (p := p)
  refine ⟨_, _, hstands, ?_, ?_⟩
  · rw [hstands.offset_eq, hs.offset_eq, byteLength_append]
    exact Nat.le_add_right ..
  · rw [hstands.offset_eq, hs.offset_eq, hcommand, byteLength_append, byteLength_append,
      Nat.add_assoc]

/-- What stands in the inside of a brace group stands in the text that holds the group. -/
theorem Statement.StandsBetween.inGroup {group : Statement}
    {inner rest front behind front' behind' : List Char} {closing : Char}
    (hgroup : group.StandsBetween text line front behind)
    (text_eq : group.text = '{' :: (inner ++ closing :: rest))
    (h : c.statement.StandsBetween inner group.line front' behind') :
    (c.inGroup group.offset).statement.StandsBetween text line (front ++ '{' :: front')
      (behind' ++ closing :: rest ++ behind) where
  text_eq := by
    rw [hgroup.text_eq, text_eq, h.text_eq]
    simp [Command.inGroup]
  offset_eq := by
    have hbrace : '{'.utf8Size = 1 := rfl
    simp [Command.inGroup, hgroup.offset_eq, h.offset_eq, hbrace, Nat.add_assoc]
  line_eq := by
    simp [Command.inGroup, hgroup.line_eq, h.line_eq, lineAfter, Nat.add_assoc]
  begins := h.begins

/-- A command stands in its text, whatever the depth at which it is read. Behind a command in a
group of a dialect stands the brace that closes the group. -/
theorem exists_of_mem_commands (hc : c ∈ commands p text line) :
    ∃ front behind, c.statement.StandsBetween text line front behind ∧
      ∀ d : Dialect, p = d.profile → 0 < c.groups → '}' ∈ behind := by
  refine @commands_induction p text line c
    (fun text line c ↦ ∃ front behind, c.statement.StandsBetween text line front behind ∧
      ∀ d : Dialect, p = d.profile → 0 < c.groups → '}' ∈ behind)
    (fun hs _ ↦ ?_) (fun {text line s inner c} hs hinner _ ih ↦ ?_) hc
  · obtain ⟨front, behind, hstands, -⟩ := Statement.exists_command_standsBetween hs
    exact ⟨front, behind, hstands, fun _ _ h ↦ absurd h (Nat.lt_irrefl 0)⟩
  · obtain ⟨front, behind, hstands, -⟩ := Statement.exists_command_standsBetween hs
    obtain ⟨closing, rest, hgroup, -, hbrace⟩ := exists_of_braceGroup? hinner
    obtain ⟨front', behind', hinside, -⟩ := ih
    exact ⟨_, _, hstands.inGroup hgroup hinside, fun d hd _ ↦ by simp [hbrace d hd]⟩

/-- The bytes of a command are bytes of its statement. -/
theorem Statement.bytes_of_mem_commands {s : Statement} {isLast : Bool}
    (hs : s ∈ statements p text line) (hc : c ∈ s.commands p isLast) :
    s.offset ≤ c.statement.offset ∧
      c.statement.offset + byteLength c.statement.text ≤ s.offset + byteLength s.text := by
  obtain ⟨front, behind, -, hstart, hend⟩ := exists_command_standsBetween hs
  rcases mem_commands_iff.1 hc with ⟨-, rfl⟩ | ⟨inner, hinner, b, hb, rfl⟩
  · exact ⟨hstart, hend.le⟩
  · obtain ⟨closing, rest, hgroup, -⟩ := exists_of_braceGroup? hinner
    obtain ⟨front', behind', ⟨htext, hoffset, -, -⟩, -⟩ := exists_of_mem_commands hb
    have hbrace : '{'.utf8Size = 1 := rfl
    have hlength := congrArg byteLength htext
    rw [hgroup] at hend
    simp only [byteLength_append, byteLength_cons, hbrace] at hend hlength
    simp only [Command.inGroup]
    omega

/-- The commands of a text stand one behind the other. -/
theorem pairwise_commands (p : Profile) (text : List Char) (line : Nat) :
    (commands p text line).Pairwise fun b c ↦
      b.statement.offset + byteLength b.statement.text ≤ c.statement.offset := by
  induction hlength : text.length using Nat.strong_induction_on generalizing text line with
  | _ length ih =>
    rw [commands_eq, List.pairwise_flatMap]
    refine ⟨fun s hs ↦ ?_, ?_⟩
    · rw [Statement.commands]
      cases hinner : braceGroup? p (s.command p).text with
      | none => exact List.pairwise_singleton _ _
      | some inner =>
        refine List.pairwise_map.2 ((ih _ (hlength ▸ Extraction.length_lt_of_group hs hinner)
          inner _ rfl).imp fun hbc ↦ ?_)
        simp only [Command.inGroup]
        omega
    · refine (pairwise_statements p text line).imp_of_mem fun {s t} hs ht hapart b hb c hc ↦ ?_
      have hfirst := Statement.bytes_of_mem_commands hs hb
      have hsecond := Statement.bytes_of_mem_commands ht hc
      omega

/-- **Lines are right through any nesting.** Everything that a complete logical line defines or
reports is found at a command, in whatever depth of groups and behind whatever leading parts, and
carries the line of the text's start and the newlines in front of the command. -/
theorem lines_of_commands (p : Profile) (file : Path) (text : List Char) (first : Nat) :
    (∀ d ∈ (Extraction.ofLine p file ⟨text, first, none⟩).definitions,
      ∃ c ∈ commands p text first, d ∈ (c.extraction p file).definitions ∧
        ∃ front behind, c.statement.StandsBetween text first front behind ∧
          d.line = first + front.count '\n') ∧
    ∀ n ∈ (Extraction.ofLine p file ⟨text, first, none⟩).diagnostics,
      ∃ c ∈ commands p text first, n ∈ (c.extraction p file).diagnostics ∧
        ∃ front behind kind name, c.statement.StandsBetween text first front behind ∧
          n = .badName file (first + front.count '\n') kind name := by
  have hfound : Extraction.ofLine p file ⟨text, first, none⟩ =
      .concat ((commands p text first).map (Command.extraction p file)) :=
    Extraction.ofText_eq_commands p file text first
  rw [hfound, Extraction.definitions_concat, Extraction.diagnostics_concat, List.flatMap_map,
    List.flatMap_map]
  refine ⟨fun d hd ↦ ?_, fun n hn ↦ ?_⟩
  · obtain ⟨c, hc, hd⟩ := List.mem_flatMap.1 hd
    obtain ⟨front, behind, hstands, -⟩ := exists_of_mem_commands hc
    refine ⟨c, hc, hd, front, behind, hstands, ?_⟩
    rw [(Extraction.line_of_ofCommand c.statement c.isLast).1 d hd, hstands.line_eq, lineAfter]
  · obtain ⟨c, hc, hn⟩ := List.mem_flatMap.1 hn
    obtain ⟨front, behind, hstands, -⟩ := exists_of_mem_commands hc
    obtain ⟨kind, name, rfl⟩ := (Extraction.line_of_ofCommand c.statement c.isLast).2 n hn
    refine ⟨c, hc, hn, front, behind, kind, name, hstands, ?_⟩
    rw [hstands.line_eq, lineAfter]

-- What is dropped in front of the last command holds a newline of its own.
example : ((commands Dialect.bash.profile
      "\x7b then \x7b\n a\n\x7d; case 'y\ny' in z) b\n\x7d".toList 10).map
    fun c ↦ (c.statement.text, c.statement.line, c.groups)) =
    [("a".toList, 11, 2), ("b".toList, 13, 1)] := by decide +kernel

end Commands

end ShellCatalog
