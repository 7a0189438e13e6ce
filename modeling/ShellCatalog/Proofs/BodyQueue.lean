import ShellCatalog.Proofs.BodyRewrite

/-!
# The queue of here-document bodies

Several documents may be announced before the first body begins. Their bodies then follow in the
order of the announcements, each up to the line that ends it, and whatever stands in them is body:
a quote, a bracket, an escape, the line that would end a later document.

**One line at a time** (`reads_bodyLine`): a line of a body either ends the first document of the
queue or leaves the queue alone, and in both cases the next line begins afresh. So a body takes one
document off the queue (`reads_body`), and the bodies of the whole queue lead back to code
(`reads_bodies`). Inside them no state is balanced, since the next character is body
(`mode_of_hereBody`).
-/

namespace ShellCatalog

/-- A here-document, the lines of its body, and the line that ends it. -/
structure FilledDoc where
  doc : HereDoc
  lines : List (List Char)
  last : List Char
  deriving DecidableEq, Repr

namespace FilledDoc

/-- The body as it is written, with the line that ends it. -/
def text (b : FilledDoc) : List Char :=
  (b.lines ++ [b.last]).flatMap (· ++ ['\n'])

/-- Each line is a single one, and only the last of them ends the document. -/
structure IsWritten (b : FilledDoc) : Prop where
  lines : ∀ line ∈ b.lines, '\n' ∉ line ∧ b.doc.isEndedBy line = false
  last : '\n' ∉ b.last ∧ b.doc.isEndedBy b.last = true

end FilledDoc

namespace Nesting

variable {p : Profile} {s : Nesting} {docs : List HereDoc} {doc : HereDoc}

/-- A line of the first of these bodies begins, or a line of code behind the last of them. -/
structure AtBodyLine (docs : List HereDoc) (s : Nesting) : Prop where
  mode : s.mode = if docs = [] then .code else .hereDoc
  ready : s.escaping = false
  docs : s.hereDocs = docs
  fresh : s.lineSoFar = []

/-! ### What is read as a body -/

/-- A body is read in the mode of one. -/
theorem mode_of_hereBody {c : Char} {rest : List Char}
    (body : (s.step p c rest).2 = .hereBody) :
    s.mode = .hereDoc ∨ ∃ quote, s.mode = .hereString quote := by
  obtain ⟨t, role, hreaction, hstep⟩ := exists_reaction p s c rest
  rw [hstep] at body
  obtain rfl : role = .hereBody := body
  cases hreaction with
  | endHereDocLine _ hmode | hereDoc _ hmode => exact .inl hmode
  | endHereStringLine quote _ hmode | hereString quote _ _ hmode => exact .inr ⟨quote, hmode⟩

/-- No group opens or closes in a body. -/
theorem groups_of_hereBody {c : Char} {rest : List Char}
    (body : (s.step p c rest).2 = .hereBody) : (s.step p c rest).1.groups = s.groups := by
  obtain ⟨t, role, hreaction, hstep⟩ := exists_reaction p s c rest
  rw [hstep] at body ⊢
  obtain rfl : role = .hereBody := body
  cases hreaction with
  | endHereDocLine _ _ hc => simp [inHereDoc, hc]
  | hereDoc | endHereStringLine | hereString => rfl

theorem groups_of_mem_marksAhead {text ahead : List Char} {offset : Nat}
    (body : ∀ m ∈ marksAhead p ahead s offset text, m.role = .hereBody) :
    ∀ m ∈ marksAhead p ahead s offset text, m.after.groups = s.groups := by
  induction text generalizing s offset with
  | nil => simp [marksAhead]
  | cons c rest ih =>
    rw [marksAhead_cons, List.forall_mem_cons] at body ⊢
    have hgroups := groups_of_hereBody body.1
    exact ⟨hgroups, fun m hm ↦ (ih body.2 m hm).trans hgroups⟩

/-- Within a body no state is balanced. -/
theorem isBalanced_of_prefix {front behind ahead : List Char} {offset : Nat}
    (body : ∀ m ∈ marksAhead p ahead s offset (front ++ behind), m.role = .hereBody)
    (more : behind ≠ []) : (s.afterText p front (behind ++ ahead)).isBalanced = false := by
  obtain ⟨c, rest, rfl⟩ := List.exists_cons_of_ne_nil more
  rw [marksAhead_append, afterMarks_marksAhead, marksAhead_cons] at body
  have hnext := body _ (List.mem_append_right _ List.mem_cons_self)
  rw [← Bool.not_eq_true, isBalanced_iff]
  rintro ⟨hcode, -⟩
  rcases mode_of_hereBody hnext with hmode | ⟨quote, hmode⟩
  · simpa using hcode.symm.trans hmode
  · simpa using hcode.symm.trans hmode

/-! ### Lines and bodies -/

/-- The newline of a line that ends the first document takes it off the queue, any other newline
leaves the queue alone, and in both cases the next line begins afresh. -/
theorem atBodyLine_step (rest : List Char) (inside : s.mode = .hereDoc)
    (ready : s.escaping = false) :
    (s.step p '\n' rest).2 = .hereBody ∧
      (s.step p '\n' rest).1.AtBodyLine
        (if s.atHereDocEnd then s.hereDocs.tail else s.hereDocs) := by
  have hreact : s.react p '\n' rest = inHereDoc s '\n' := by simp [react, ready, inside]
  rw [step, hreact, inHereDoc, if_pos rfl]
  exact ⟨rfl, by simp only [List.isEmpty_iff], ready, rfl, rfl⟩

/-- A line of a body is body, and takes the first document off the queue if it ends it. -/
theorem reads_bodyLine {line : List Char} (ahead : List Char) (offset : Nat)
    (hs : s.AtBodyLine (doc :: docs)) (single : '\n' ∉ line) :
    (∀ m ∈ marksAhead p ahead s offset (line ++ ['\n']), m.role = .hereBody) ∧
      (s.afterText p (line ++ ['\n']) ahead).AtBodyLine
        (if doc.isEndedBy line then docs else doc :: docs) := by
  have hmode : s.mode = .hereDoc := hs.mode
  obtain ⟨hmarks, hafter⟩ :=
    marksAhead_bodyText (p := p) (['\n'] ++ ahead) offset hmode hs.ready single
  rw [marksAhead_append, afterText_append, afterMarks_marksAhead]
  set t := s.afterText p line (['\n'] ++ ahead) with ht
  have hend : t.atHereDocEnd = doc.isEndedBy line := by
    rw [hafter, hs.fresh, List.nil_append, atHereDocEnd, hs.docs]
  have hdocs : t.hereDocs = doc :: docs := by rw [hafter, hs.docs]
  obtain ⟨hrole, hnext⟩ := atBodyLine_step (p := p) (s := t) ([] ++ ahead)
    (by rw [hafter]; exact hmode) (by rw [hafter]; exact hs.ready)
  rw [hend, hdocs, List.tail_cons] at hnext
  refine ⟨?_, hnext⟩
  rw [List.forall_mem_append]
  exact ⟨fun m hm ↦ (hmarks m hm).role, by simpa [marksAhead] using hrole⟩

/-- Lines of which none ends the document leave the queue alone. -/
theorem reads_bodyLines {lines : List (List Char)} (ahead : List Char) (offset : Nat)
    (hs : s.AtBodyLine (doc :: docs))
    (inside : ∀ line ∈ lines, '\n' ∉ line ∧ doc.isEndedBy line = false) :
    (∀ m ∈ marksAhead p ahead s offset (lines.flatMap (· ++ ['\n'])), m.role = .hereBody) ∧
      (s.afterText p (lines.flatMap (· ++ ['\n'])) ahead).AtBodyLine (doc :: docs) := by
  induction lines generalizing s offset with
  | nil => exact ⟨by simp [marksAhead], hs⟩
  | cons line lines ih =>
    obtain ⟨⟨hsingle, hgoes⟩, hlines⟩ := List.forall_mem_cons.1 inside
    obtain ⟨hmarks, hafter⟩ :=
      reads_bodyLine (p := p) (lines.flatMap (· ++ ['\n']) ++ ahead) offset hs hsingle
    rw [hgoes, if_neg Bool.false_ne_true] at hafter
    rw [List.flatMap_cons, marksAhead_append, afterText_append, afterMarks_marksAhead,
      List.forall_mem_append]
    obtain ⟨hmarks', hafter'⟩ := ih (offset + byteLength (line ++ ['\n'])) hafter hlines
    exact ⟨⟨hmarks, hmarks'⟩, hafter'⟩

/-- A body takes its document off the queue. -/
theorem reads_body {b : FilledDoc} (ahead : List Char) (offset : Nat)
    (hs : s.AtBodyLine (b.doc :: docs)) (written : b.IsWritten) :
    (∀ m ∈ marksAhead p ahead s offset b.text, m.role = .hereBody) ∧
      (s.afterText p b.text ahead).AtBodyLine docs := by
  rw [FilledDoc.text, List.flatMap_append, List.flatMap_singleton, marksAhead_append,
    afterText_append, afterMarks_marksAhead, List.forall_mem_append]
  obtain ⟨hmarks, hafter⟩ :=
    reads_bodyLines (p := p) (b.last ++ ['\n'] ++ ahead) offset hs written.lines
  obtain ⟨hmarks', hafter'⟩ := reads_bodyLine (p := p) ahead
    (offset + byteLength (b.lines.flatMap (· ++ ['\n']))) hafter written.last.1
  rw [written.last.2, if_pos rfl] at hafter'
  exact ⟨⟨hmarks, hmarks'⟩, hafter'⟩

/-- Bodies take their documents off the queue, one after another. -/
theorem reads_bodies {bodies : List FilledDoc} (ahead : List Char) (offset : Nat)
    (hs : s.AtBodyLine (bodies.map FilledDoc.doc ++ docs)) (written : ∀ b ∈ bodies, b.IsWritten) :
    (∀ m ∈ marksAhead p ahead s offset (bodies.flatMap FilledDoc.text), m.role = .hereBody) ∧
      (s.afterText p (bodies.flatMap FilledDoc.text) ahead).AtBodyLine docs := by
  induction bodies generalizing s offset with
  | nil => exact ⟨by simp [marksAhead], hs⟩
  | cons b bodies ih =>
    obtain ⟨hb, hbodies⟩ := List.forall_mem_cons.1 written
    rw [List.flatMap_cons, marksAhead_append, afterText_append, afterMarks_marksAhead,
      List.forall_mem_append]
    obtain ⟨hmarks, hafter⟩ :=
      reads_body (p := p) (bodies.flatMap FilledDoc.text ++ ahead) offset hs hb
    obtain ⟨hmarks', hafter'⟩ := ih (offset + byteLength b.text) hafter hbodies
    exact ⟨⟨hmarks, hmarks'⟩, hafter'⟩

/-- The bodies of all documents in the queue are body from the first character to the last, take the
documents off the queue in its order, and lead back to code with the groups that were open in front
of them. No part of them in front of the last newline leaves a balanced state. -/
theorem reads_hereDocs {bodies : List FilledDoc} (ahead : List Char) (offset : Nat)
    (inside : s.mode = .hereDoc) (fresh : s.lineSoFar = []) (ready : s.escaping = false)
    (queue : s.hereDocs = bodies.map FilledDoc.doc) (full : bodies ≠ [])
    (written : ∀ b ∈ bodies, b.IsWritten) :
    (∀ m ∈ marksAhead p ahead s offset (bodies.flatMap FilledDoc.text),
        m.role = .hereBody ∧ m.after.groups = s.groups) ∧
      (∀ done todo, bodies = done ++ todo →
        (s.afterText p (done.flatMap FilledDoc.text)
          (todo.flatMap FilledDoc.text ++ ahead)).hereDocs = todo.map FilledDoc.doc) ∧
      (let t := s.afterText p (bodies.flatMap FilledDoc.text) ahead
       t.mode = .code ∧ t.hereDocs = [] ∧ t.escaping = false ∧ t.groups = s.groups ∧
         t.line = s.line + (bodies.flatMap FilledDoc.text).count '\n') ∧
      ∀ front behind, bodies.flatMap FilledDoc.text = front ++ behind → behind ≠ [] →
        (s.afterText p front (behind ++ ahead)).isBalanced = false := by
  have hs (docs : List HereDoc) (hdocs : s.hereDocs = docs) : s.AtBodyLine docs := by
    refine ⟨?_, ready, hdocs, fresh⟩
    rw [inside, ← hdocs, queue, if_neg (by simpa using full)]
  obtain ⟨hmarks, hafter⟩ := reads_bodies (p := p) ahead offset
    (hs (bodies.map FilledDoc.doc ++ []) (by rw [queue, List.append_nil])) written
  have hgroups := groups_of_mem_marksAhead hmarks
  refine ⟨fun m hm ↦ ⟨hmarks m hm, hgroups m hm⟩, ?_,
    ⟨hafter.mode, hafter.docs, hafter.ready, ?_, ?_⟩, ?_⟩
  · rintro done todo rfl
    refine (reads_bodies (p := p) _ offset (hs _ ?_) fun b hb ↦ ?_).2.docs
    · rw [queue, List.map_append]
    · exact written b (List.mem_append_left _ hb)
  · rw [← afterMarks_marksAhead p ahead s offset, afterMarks]
    cases hlast : (marksAhead p ahead s offset (bodies.flatMap FilledDoc.text)).getLast? with
    | none => rfl
    | some m => exact hgroups m (List.mem_of_getLast? hlast)
  · rw [line_afterText, lineAfter]
  · intro front behind htext more
    rw [htext] at hmarks
    exact isBalanced_of_prefix hmarks more

/-- Two documents, of which the second ignores tabs. The first body holds a line that would end the
second document, and the second one that would end the first. -/
theorem reads_hereDocs_of_two :
    let s := (start 1).afterText Dialect.bash.profile "cat <<A <<-B\n".toList []
    let text := "B\n'\nA\nA\n\tB\n".toList
    (∀ m ∈ marksAhead Dialect.bash.profile [] s 13 text,
        m.role = .hereBody ∧ m.after.groups = s.groups) ∧
      (s.afterText Dialect.bash.profile text []).mode = .code ∧
      (s.afterText Dialect.bash.profile text []).hereDocs = [] := by
  intro s text
  set first : FilledDoc := ⟨⟨['A'], false, 1⟩, [['B'], ['\'']], ['A']⟩
  set second : FilledDoc := ⟨⟨['B'], true, 1⟩, [['A']], ['\t', 'B']⟩
  have hwritten : ∀ b ∈ [first, second], b.IsWritten := by
    intro b hb
    simp only [List.mem_cons, List.not_mem_nil, or_false] at hb
    rcases hb with rfl | rfl <;> exact ⟨by decide, by decide⟩
  have htext : [first, second].flatMap FilledDoc.text = text := by decide
  obtain ⟨hmarks, -, ⟨hmode, hdocs, -⟩, -⟩ := reads_hereDocs (p := Dialect.bash.profile) (s := s)
    [] 13 (by decide +kernel) (by decide +kernel) (by decide +kernel) (by decide +kernel) (by simp)
    hwritten
  rw [htext] at hmarks hmode hdocs
  exact ⟨hmarks, hmode, hdocs⟩

end Nesting

end ShellCatalog
