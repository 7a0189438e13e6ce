import ShellCatalog.Proofs.BodyShape
import ShellCatalog.Text.Extent
import ShellCatalog.Text.Utf8

/-!
# Indenting a body does not change how it is reported

Spaces and tabs in front of a line do not make it visible, so the same lines count as blank whether
or not all lines are indented once more, and **the shared indentation grows by exactly what was put
in front**: all of it goes again when the lines are dedented (`Body.dedent_indentLines`).

Indentations are compared, and lines are cut, at byte offsets. A cut past the end of a text or
inside a character fails (`cutAtByte?_eq_some_iff`). Two indentations are made of characters that
are one byte each, so counting equal bytes at their start counts equal characters, and no cut on the
way to a body ever fails (`Body.dedentBytes?_eq`).
-/

namespace ShellCatalog

/-- The text with `w` in front of every line. -/
def indentLines (w text : List Char) : List Char :=
  ['\n'].intercalate ((splitOn '\n' text).map (w ++ ·))

/-! ### Indented lines -/

section Indented

variable {w : List Char}

/-- Parts without the dividing character are read back from the text it joins them to. -/
theorem splitOn_intercalate {c : Char} {parts : List (List Char)} (nonempty : parts ≠ [])
    (free : ∀ part ∈ parts, c ∉ part) : splitOn c ([c].intercalate parts) = parts := by
  induction parts with
  | nil => exact absurd rfl nonempty
  | cons part parts ih =>
    have hpart := free part List.mem_cons_self
    cases parts with
    | nil => rw [List.intercalate_singleton, splitOn_of_not_mem hpart]
    | cons next parts =>
      rw [List.intercalate_cons_cons, List.append_assoc, List.singleton_append,
        splitOn_append_cons hpart,
        ih (List.cons_ne_nil _ _) fun l hl ↦ free l (List.mem_cons_of_mem _ hl)]

theorem splitOn_indentLines (hw : ∀ c ∈ w, isIndent c = true) (text : List Char) :
    splitOn '\n' (indentLines w text) = (splitOn '\n' text).map (w ++ ·) := by
  have hnewline : '\n' ∉ w := fun h ↦ absurd (hw _ h) (by decide)
  refine splitOn_intercalate (by simpa using splitOn_ne_nil '\n' text) fun line hline ↦ ?_
  obtain ⟨l, hl, rfl⟩ := List.mem_map.1 hline
  simp [hnewline, not_mem_of_mem_splitOn hl]

/-- Indenting its lines leaves a text as many of them. -/
theorem newline_mem_indentLines_iff (hw : ∀ c ∈ w, isIndent c = true) {text : List Char} :
    '\n' ∈ indentLines w text ↔ '\n' ∈ text := by
  have hcount : (indentLines w text).count '\n' = text.count '\n' := by
    have hlength := length_splitOn '\n' (indentLines w text)
    rw [splitOn_indentLines hw, List.length_map, length_splitOn] at hlength
    omega
  rw [← List.count_pos_iff, hcount, List.count_pos_iff]

theorem indentLines_of_not_mem {text : List Char} (single : '\n' ∉ text) :
    indentLines w text = w ++ text := by
  rw [indentLines, splitOn_of_not_mem single, List.map_singleton, List.intercalate_singleton]

/-- The ends that are dropped are found by what is blank. -/
theorem dropBlankEnds_map {f : List Char → List Char}
    (same : ∀ line, isBlank (f line) = isBlank line) (lines : List (List Char)) :
    dropBlankEnds (lines.map f) = (dropBlankEnds lines).map f := by
  have hblank : isBlank ∘ f = isBlank := funext same
  have hfirst : (if ((lines.map f).head?.map isBlank).getD false then (lines.map f).tail
      else lines.map f) =
        (if (lines.head?.map isBlank).getD false then lines.tail else lines).map f := by
    rw [List.head?_map, Option.map_map, hblank, ← List.map_tail, apply_ite (List.map f)]
  have hlast (ls : List (List Char)) :
      (if ((ls.map f).getLast?.map isBlank).getD false then (ls.map f).dropLast else ls.map f) =
        (if (ls.getLast?.map isBlank).getD false then ls.dropLast else ls).map f := by
    rw [List.getLast?_map, Option.map_map, hblank, ← List.map_dropLast, apply_ite (List.map f)]
  rw [dropBlankEnds, hfirst]
  exact hlast _

theorem trim_append_of_isIndent (hw : ∀ c ∈ w, isIndent c = true) (text : List Char) :
    trim (w ++ text) = trim text := by
  rw [trim, trim, trimStart, List.dropWhile_append_of_pos fun c hc ↦ isSpace_of_isIndent (hw c hc),
    trimStart]

end Indented

/-! ### Cutting at byte offsets -/

/-- What stands in front of the byte offset `n` of a text and what stands behind it. There is no
such cut past the end of the text or inside one of its characters. -/
def cutAtByte? : Nat → List Char → Option (List Char × List Char)
  | 0, text => some ([], text)
  | _ + 1, [] => none
  | n + 1, c :: text =>
    if c.utf8Size ≤ n + 1 then
      (cutAtByte? (n + 1 - c.utf8Size) text).map fun cut ↦ (c :: cut.1, cut.2)
    else none

/-- The number of equal bytes at the start of two texts. -/
def sharedByteCount (s t : List Char) : Nat :=
  (((utf8Bytes s).zip (utf8Bytes t)).takeWhile fun bytes ↦ bytes.1 == bytes.2).length

/-- The spaces and tabs at the start of a line, cut off where the rest of the line begins. -/
def leadingBytes? (line : List Char) : Option (List Char) :=
  (cutAtByte? (byteLength line - byteLength (line.dropWhile isIndent)) line).map (·.1)

/-- The part of an indentation that a line has too, cut off where their bytes differ first. -/
def shareBytes? (indent line : List Char) : Option (List Char) :=
  (leadingBytes? line).bind fun leading ↦
    (cutAtByte? (sharedByteCount indent leading) indent).map (·.1)

/-- The shared indentation, found with cuts at byte offsets. -/
def sharedIndentBytes? (lines : List (List Char)) : Option (List Char) :=
  match lines.filter fun line ↦ !isBlank line with
  | [] => some []
  | first :: others => (leadingBytes? first).bind fun indent ↦ others.foldlM shareBytes? indent

/-- A line without an indentation, cut off where the indentation ends. -/
def dedentLineBytes? (indent line : List Char) : Option (List Char) :=
  if isBlank line then some []
  else (cutAtByte? (byteLength indent) line).map fun cut ↦ trimEnd cut.2

/-- The body as it is reported, found with cuts at byte offsets. -/
def Body.dedentBytes? (inner : List Char) : Option (List Char) :=
  if '\n' ∉ inner then some (trim inner)
  else
    let lines := dropBlankEnds (splitOn '\n' inner)
    (sharedIndentBytes? lines).bind fun indent ↦
      (lines.mapM (dedentLineBytes? indent)).map (·.flatMap (· ++ ['\n']))

/-- A cut at a byte offset parts the text there. -/
theorem cutAtByte?_eq_some_iff {n : Nat} {text front behind : List Char} :
    cutAtByte? n text = some (front, behind) ↔ text = front ++ behind ∧ byteLength front = n := by
  induction text generalizing n front with
  | nil => cases n <;> simp +contextual [cutAtByte?, eq_comm]
  | cons c text ih =>
    have hsize : 0 < c.utf8Size := c.utf8Size_pos
    cases n with
    | zero =>
      cases front with
      | nil => simp [cutAtByte?]
      | cons d front =>
        have hd : 0 < d.utf8Size := d.utf8Size_pos
        simp only [cutAtByte?, Option.some.injEq, Prod.mk.injEq, List.nil_eq, reduceCtorEq,
          false_and, byteLength_cons, false_iff, not_and]
        omega
    | succ n =>
      rw [cutAtByte?]
      cases front with
      | nil => simp
      | cons d front =>
        simp only [List.cons_append, List.cons.injEq, byteLength_cons]
        split
        · next hle =>
          simp only [Option.map_eq_some_iff, Prod.mk.injEq, List.cons.injEq]
          constructor
          · rintro ⟨⟨front', behind'⟩, hcut, ⟨rfl, rfl⟩, rfl⟩
            obtain ⟨htext, hlength⟩ := ih.1 hcut
            exact ⟨⟨rfl, htext⟩, by rw [hlength]; omega⟩
          · rintro ⟨⟨rfl, rfl⟩, hlength⟩
            exact ⟨(front, behind), ih.2 ⟨rfl, by omega⟩, ⟨rfl, rfl⟩, rfl⟩
        · next hle =>
          simp only [reduceCtorEq, false_iff, not_and]
          rintro ⟨rfl, -⟩
          omega

theorem cutAtByte?_append (front behind : List Char) :
    cutAtByte? (byteLength front) (front ++ behind) = some (front, behind) :=
  cutAtByte?_eq_some_iff.2 ⟨rfl, rfl⟩

theorem leadingBytes?_eq (line : List Char) :
    leadingBytes? line = some (line.takeWhile isIndent) := by
  have hline : line.takeWhile isIndent ++ line.dropWhile isIndent = line :=
    List.takeWhile_append_dropWhile
  have hoffset : byteLength line - byteLength (line.dropWhile isIndent) =
      byteLength (line.takeWhile isIndent) := by
    have hlength := congrArg byteLength hline
    rw [byteLength_append] at hlength
    omega
  rw [leadingBytes?, hoffset, cutAtByte?_eq_some_iff.2 ⟨hline.symm, rfl⟩, Option.map_some]

/-! ### Indentations are one byte to a character -/

/-- A space and a tab are one byte each, and different ones. -/
theorem utf8EncodeChar_of_isIndent {c : Char} (hc : isIndent c = true) :
    String.utf8EncodeChar c = [c.toUInt8] ∧ c.utf8Size = 1 := by
  simp only [isIndent, Bool.or_eq_true, beq_iff_eq] at hc
  rcases hc with rfl | rfl <;> decide

theorem toUInt8_eq_iff_of_isIndent {c d : Char} (hc : isIndent c = true) (hd : isIndent d = true) :
    c.toUInt8 = d.toUInt8 ↔ c = d := by
  simp only [isIndent, Bool.or_eq_true, beq_iff_eq] at hc hd
  rcases hc with rfl | rfl <;> rcases hd with rfl | rfl <;> decide

/-- Of two indentations, equal bytes are equal characters. -/
theorem sharedByteCount_eq {s t : List Char} (hs : ∀ c ∈ s, isIndent c = true)
    (ht : ∀ c ∈ t, isIndent c = true) : sharedByteCount s t = byteLength (sharedStart s t) := by
  induction s generalizing t with
  | nil => rfl
  | cons c s ih =>
    cases t with
    | nil => simp [sharedByteCount, utf8Bytes, sharedStart]
    | cons d t =>
      rw [List.forall_mem_cons] at hs ht
      have hrest := ih hs.2 ht.2
      have hc := utf8EncodeChar_of_isIndent hs.1
      have hd := utf8EncodeChar_of_isIndent ht.1
      have hbytes : (utf8Bytes (c :: s)).zip (utf8Bytes (d :: t)) =
          (c.toUInt8, d.toUInt8) :: (utf8Bytes s).zip (utf8Bytes t) := by
        rw [utf8Bytes, utf8Bytes, List.flatMap_cons, List.flatMap_cons, hc.1, hd.1]
        rfl
      rw [sharedByteCount, hbytes, List.takeWhile_cons, sharedStart]
      by_cases heq : c = d
      · subst heq
        rw [if_pos (beq_self_eq_true _), if_pos rfl, List.length_cons, byteLength_cons, hc.2,
          ← hrest,
          sharedByteCount, Nat.add_comm]
      · have hne : (c.toUInt8 == d.toUInt8) = false :=
          beq_eq_false_iff_ne.2 fun h ↦ heq ((toUInt8_eq_iff_of_isIndent hs.1 ht.1).1 h)
        rw [if_neg (by simp [hne]), if_neg heq]
        rfl

/-- What an indentation shares with a line is an indentation. -/
theorem isIndent_of_mem_sharedStart {s t : List Char} (hs : ∀ c ∈ s, isIndent c = true) :
    ∀ c ∈ sharedStart s t, isIndent c = true :=
  fun c hc ↦ hs c ((isPrefix_sharedStart_iff.1 (List.prefix_refl _)).1.subset hc)

theorem isIndent_of_mem_takeWhile {line : List Char} :
    ∀ c ∈ line.takeWhile isIndent, isIndent c = true :=
  List.all_eq_true.1 List.all_takeWhile

theorem shareBytes?_eq {indent : List Char} (hindent : ∀ c ∈ indent, isIndent c = true)
    (line : List Char) :
    shareBytes? indent line = some (sharedStart indent (line.takeWhile isIndent)) := by
  obtain ⟨rest, hrest⟩ :=
    (isPrefix_sharedStart_iff.1 (List.prefix_refl (sharedStart indent (line.takeWhile isIndent)))).1
  rw [shareBytes?, leadingBytes?_eq, Option.bind_some,
    sharedByteCount_eq hindent isIndent_of_mem_takeWhile,
    cutAtByte?_eq_some_iff.2 ⟨hrest.symm, rfl⟩, Option.map_some]

theorem foldlM_shareBytes? {indent : List Char} (hindent : ∀ c ∈ indent, isIndent c = true)
    (lines : List (List Char)) :
    lines.foldlM shareBytes? indent =
      some ((lines.map (·.takeWhile isIndent)).foldl sharedStart indent) := by
  induction lines generalizing indent with
  | nil => rfl
  | cons line lines ih =>
    rw [List.foldlM_cons, shareBytes?_eq hindent, List.map_cons, List.foldl_cons]
    exact ih (isIndent_of_mem_sharedStart hindent)

theorem sharedIndentBytes?_eq (lines : List (List Char)) :
    sharedIndentBytes? lines = some (sharedIndent lines) := by
  rw [sharedIndentBytes?, sharedIndent]
  cases lines.filter fun line ↦ !isBlank line with
  | nil => rfl
  | cons first others =>
    dsimp only
    rw [leadingBytes?_eq, Option.bind_some, foldlM_shareBytes? isIndent_of_mem_takeWhile]
    rfl

/-- The shared indentation begins every line that it is cut off from. -/
theorem mapM_dedentLineBytes? {indent : List Char} {lines : List (List Char)}
    (begins : ∀ line ∈ lines, isBlank line = false → indent <+: line) :
    lines.mapM (dedentLineBytes? indent) = some (lines.map (dedentLine indent)) := by
  induction lines with
  | nil => rfl
  | cons line lines ih =>
    rw [List.forall_mem_cons] at begins
    have hline : dedentLineBytes? indent line = some (dedentLine indent line) := by
      rw [dedentLineBytes?, dedentLine]
      split
      · rfl
      · next hvisible =>
        obtain ⟨rest, rfl⟩ := begins.1 (by simpa using hvisible)
        rw [cutAtByte?_append, Option.map_some, List.drop_left]
    rw [List.mapM_cons, hline, ih begins.2]
    rfl

/-- No cut on the way to a body fails. -/
theorem Body.dedentBytes?_eq (inner : List Char) : dedentBytes? inner = some (dedent inner) := by
  rw [dedentBytes?, dedent]
  split
  · rfl
  · dsimp only
    rw [sharedIndentBytes?_eq, Option.bind_some, mapM_dedentLineBytes? fun line hline hshown ↦
      ((isPrefix_sharedIndent_iff ⟨line, hline, hshown⟩).1 (List.prefix_refl _)).2 line hline
        hshown, Option.map_some, List.flatMap_map]
    rfl

/-! ### Indented bodies -/

/-- Indenting all lines of a text once more, the blank ones included, does not change the body that
is reported, and on the way to it no cut is past the end of a line or inside a character. -/
theorem Body.dedent_indentLines {w : List Char} (hw : ∀ c ∈ w, isIndent c = true)
    (inner : List Char) :
    dedent (indentLines w inner) = dedent inner ∧ dedentBytes? inner = some (dedent inner) ∧
      dedentBytes? (indentLines w inner) = some (dedent inner) := by
  have hdedent : dedent (indentLines w inner) = dedent inner := by
    by_cases single : '\n' ∉ inner
    · rw [dedent, if_pos (by rwa [newline_mem_indentLines_iff hw]), dedent, if_pos single,
        indentLines_of_not_mem single, trim_append_of_isIndent hw]
    · rw [dedent, if_neg (by rwa [newline_mem_indentLines_iff hw]), dedent, if_neg single]
      simp only [splitOn_indentLines hw, dropBlankEnds_map (isBlank_append_of_isIndent hw),
        List.flatMap_map, isBlank_append_of_isIndent hw]
      refine List.flatMap_congr fun line hline ↦ ?_
      split
      · rfl
      · next hvisible =>
        rw [sharedIndent_map_append hw ⟨line, hline, by simpa using hvisible⟩, List.length_append,
          ← List.drop_drop, List.drop_left]
  exact ⟨hdedent, dedentBytes?_eq inner, (dedentBytes?_eq _).trans (congrArg some hdedent)⟩

/-- Lines indented in different ways, with blank ones and with characters of several bytes between
them. -/
theorem Body.dedent_indentLines_of_mixed :
    (∀ c ∈ "\t ".toList, isIndent c = true) ∧
      dedent (indentLines "\t ".toList "\n  é\n\n \tü \n\u00a0\n ".toList) =
        dedent "\n  é\n\n \tü \n\u00a0\n ".toList ∧
      dedentBytes? "\n  é\n\n \tü \n\u00a0\n ".toList = some " é\n\n\tü\n\n".toList := by
  have hw : ∀ c ∈ "\t ".toList, isIndent c = true := List.all_eq_true.1 (by decide)
  obtain ⟨hsame, hcut, -⟩ := dedent_indentLines hw "\n  é\n\n \tü \n\u00a0\n ".toList
  exact ⟨hw, hsame, hcut.trans (by decide)⟩

end ShellCatalog
