/-!
# Cutting and comparing texts

Every reader of the program cuts its text in one of four ways, and each way has an inverse that says
what the parts are.

* `splitOn` cuts at every occurrence of a character. Joined by the character, the parts are the text
  again (`intercalate_splitOn`), no part holds it (`not_mem_of_mem_splitOn`), and there is one part
  more than there are occurrences (`length_splitOn`). For lines the last part is what stands behind
  the last newline, so a text that ends with a newline has an empty part more than it has lines
  (`flatMap_splitOn`).
* `cutWhile` cuts in front of the first member that fails a test (`cutWhile_eq_iff`). It works on
  lists of any kind, since statements, words and bodies are cut from lists of marks.
* `splitAt?` cuts at the first occurrence of a character and drops it (`splitAt?_eq_some_iff`).
* `after?` takes a word off the front (`after?_eq_some_iff`).

Keywords, commands and parameters are compared without regard to case where a dialect says so
(`sameWord`). Only ASCII letters have a case there. Where a word of a setting or of a file name is
looked up it is put in lower case as a whole (`lowerWord`), and one more character counts.
-/

namespace ShellCatalog

/-! ### Cutting -/

/-- The parts of a text between the occurrences of `c`; there is one part more than occurrences. -/
def splitOn (c : Char) : List Char → List (List Char)
  | [] => [[]]
  | d :: rest =>
    if d = c then [] :: splitOn c rest
    else
      match splitOn c rest with
      | [] => [[d]]
      | part :: parts => (d :: part) :: parts

/-- The run of members at the start that pass a test, and the rest. -/
def cutWhile {α : Type} (test : α → Bool) (l : List α) : List α × List α :=
  (l.takeWhile test, l.dropWhile test)

/-- The parts in front of and behind the first `c`. -/
def splitAt? (c : Char) (text : List Char) : Option (List Char × List Char) :=
  match cutWhile (· != c) text with
  | (_, []) => none
  | (left, _ :: right) => some (left, right)

/-- What follows `word` at the start of a text. -/
def after? (word : List Char) (text : List Char) : Option (List Char) :=
  match word, text with
  | [], rest => some rest
  | _ :: _, [] => none
  | c :: word, d :: text => if c = d then after? word text else none

/-! ### Comparing without regard to case -/

/-- The lower-case form of an ASCII letter; other characters stay. -/
def lowerAscii (c : Char) : Char :=
  c.toLower

/-- Two words that differ at most in the case of ASCII letters. -/
def sameWord (s t : List Char) : Bool :=
  s.map lowerAscii == t.map lowerAscii

/-- A word in lower case, as far as ASCII words can tell: besides the ASCII capitals only the Kelvin
sign has an ASCII letter as its lower-case form. -/
def lowerWord (s : List Char) : List Char :=
  s.map fun c ↦ if c = '\u212a' then 'k' else lowerAscii c

theorem sameWord_comm (s t : List Char) : sameWord s t = sameWord t s := by
  simp [sameWord, BEq.comm]

@[simp] theorem sameWord_self (s : List Char) : sameWord s s = true := by
  simp [sameWord]

/-! ### Cutting at a test -/

/-- A cut loses nothing. -/
theorem append_of_cutWhile {α : Type} {test : α → Bool} {l run rest : List α}
    (h : cutWhile test l = (run, rest)) : run ++ rest = l := by
  cases h
  exact List.takeWhile_append_dropWhile

theorem length_of_cutWhile {α : Type} {test : α → Bool} {l run rest : List α}
    (h : cutWhile test l = (run, rest)) : run.length + rest.length = l.length := by
  rw [← append_of_cutWhile h, List.length_append]

/-- A run of members that pass, in front of one that does not, is what is cut off. -/
theorem cutWhile_append {α : Type} {test : α → Bool} {run rest : List α}
    (pass : ∀ a ∈ run, test a = true) (stop : ∀ a ∈ rest.head?, test a = false) :
    cutWhile test (run ++ rest) = (run, rest) := by
  induction run with
  | nil =>
    cases rest with
    | nil => rfl
    | cons a rest => simp [cutWhile, stop a (by simp)]
  | cons a run ih =>
    have hrun := ih fun b hb ↦ pass b (List.mem_cons_of_mem _ hb)
    simp only [cutWhile, Prod.mk.injEq] at hrun
    simp [cutWhile, pass a List.mem_cons_self, hrun.1, hrun.2]

/-- A cut parts a list in front of the first member that does not pass. -/
theorem cutWhile_eq_iff {α : Type} {test : α → Bool} {l run rest : List α} :
    cutWhile test l = (run, rest) ↔
      l = run ++ rest ∧ (∀ a ∈ run, test a = true) ∧ ∀ a ∈ rest.head?, test a = false := by
  constructor
  · intro h
    have happend := append_of_cutWhile h
    cases h
    refine ⟨happend.symm, List.all_eq_true.1 List.all_takeWhile, fun a ha ↦ ?_⟩
    have hhead := List.head?_dropWhile_not test l
    rw [Option.mem_def.1 ha] at hhead
    simpa using hhead
  · rintro ⟨rfl, pass, stop⟩
    exact cutWhile_append pass stop

/-- A text divides at the first `c`: nothing in front of it is one. -/
theorem splitAt?_eq_some_iff {c : Char} {text left right : List Char} :
    splitAt? c text = some (left, right) ↔ text = left ++ c :: right ∧ c ∉ left := by
  constructor
  · intro h
    unfold splitAt? at h
    split at h
    · simp at h
    · next d _ hcut =>
      cases h
      obtain ⟨htext, hleft, hstop⟩ := cutWhile_eq_iff.1 hcut
      obtain rfl : d = c := by simpa using hstop d rfl
      exact ⟨htext, fun hc ↦ by simpa using hleft d hc⟩
  · rintro ⟨rfl, hc⟩
    have hcut : cutWhile (· != c) (left ++ c :: right) = (left, c :: right) :=
      cutWhile_append (fun d hd ↦ by
        have hne : d ≠ c := fun h ↦ hc (h ▸ hd)
        simpa using hne) (by simp)
    simp [splitAt?, hcut]

/-! ### The parts of a text -/

theorem splitOn_ne_nil (c : Char) (text : List Char) : splitOn c text ≠ [] := by
  cases text with
  | nil => simp [splitOn]
  | cons d rest =>
    rw [splitOn]
    split
    · simp
    · split <;> simp

/-- Joined by the dividing character, the parts are the text. -/
theorem intercalate_splitOn (c : Char) (text : List Char) :
    [c].intercalate (splitOn c text) = text := by
  induction text with
  | nil => simp [splitOn, List.intercalate]
  | cons d rest ih =>
    rw [splitOn]
    split
    · next h =>
      subst h
      cases hs : splitOn d rest with
      | nil => exact absurd hs (splitOn_ne_nil _ _)
      | cons part parts => simp_all [List.intercalate, List.intersperse]
    · cases hs : splitOn c rest with
      | nil => exact absurd hs (splitOn_ne_nil _ _)
      | cons part parts =>
        rw [hs] at ih
        cases parts <;> simp_all [List.intercalate, List.intersperse]

/-- No part holds the dividing character. -/
theorem not_mem_of_mem_splitOn {c : Char} {text part : List Char} (h : part ∈ splitOn c text) :
    c ∉ part := by
  induction text generalizing part with
  | nil => simp_all [splitOn]
  | cons d rest ih =>
    rw [splitOn] at h
    split at h
    · rcases List.mem_cons.1 h with rfl | h
      · exact List.not_mem_nil
      · exact ih h
    · next hd =>
      cases hs : splitOn c rest with
      | nil => exact absurd hs (splitOn_ne_nil _ _)
      | cons first others =>
        rw [hs] at h ih
        rcases List.mem_cons.1 h with rfl | h
        · simp [Ne.symm hd, ih List.mem_cons_self]
        · exact ih (List.mem_cons_of_mem _ h)

theorem splitOn_of_not_mem {c : Char} {text : List Char} (h : c ∉ text) :
    splitOn c text = [text] := by
  induction text with
  | nil => rfl
  | cons d rest ih =>
    simp only [List.mem_cons, not_or] at h
    rw [splitOn, if_neg (Ne.symm h.1), ih h.2]

/-- The first part ends at the first dividing character. -/
theorem splitOn_append_cons {c : Char} {part : List Char} (h : c ∉ part) (rest : List Char) :
    splitOn c (part ++ c :: rest) = part :: splitOn c rest := by
  induction part with
  | nil => rw [List.nil_append, splitOn, if_pos rfl]
  | cons d part ih =>
    simp only [List.mem_cons, not_or] at h
    rw [List.cons_append, splitOn, if_neg (Ne.symm h.1), ih h.2]

/-- The parts of two texts with the dividing character between them are the parts of the first and
then those of the second. -/
theorem splitOn_append {c : Char} (s t : List Char) :
    splitOn c (s ++ c :: t) = splitOn c s ++ splitOn c t := by
  induction s with
  | nil => simp [splitOn]
  | cons d s ih =>
    rw [List.cons_append, splitOn, splitOn, ih]
    split
    · rfl
    · cases hs : splitOn c s with
      | nil => exact absurd hs (splitOn_ne_nil c s)
      | cons part parts => rfl

theorem length_splitOn (c : Char) (text : List Char) :
    (splitOn c text).length = text.count c + 1 := by
  induction text with
  | nil => rfl
  | cons d rest ih =>
    rw [splitOn]
    split
    · next h => rw [List.length_cons, ih, h, List.count_cons_self]
    · next h =>
      rw [List.count_cons_of_ne h, ← ih]
      cases hs : splitOn c rest with
      | nil => exact absurd hs (splitOn_ne_nil c rest)
      | cons part parts => rfl

/-- With the dividing character behind each of them, the parts are the text and one such character
more. -/
theorem flatMap_splitOn (c : Char) (text : List Char) :
    (splitOn c text).flatMap (· ++ [c]) = text ++ [c] := by
  induction text with
  | nil => simp [splitOn]
  | cons d rest ih =>
    rw [splitOn]
    split
    · next h => rw [List.flatMap_cons, ih, h, List.nil_append, List.singleton_append,
        List.cons_append]
    · cases hs : splitOn c rest with
      | nil => exact absurd hs (splitOn_ne_nil c rest)
      | cons part parts =>
        rw [hs, List.flatMap_cons] at ih
        rw [List.flatMap_cons, List.cons_append, List.cons_append, ih, List.cons_append]

/-- A text that is empty or ends with the dividing character takes as many parts as it holds such
characters, whatever follows. -/
theorem exists_splitOn_append {c : Char} {front : List Char} (ends : ∀ e ∈ front.getLast?, e = c) :
    ∃ parts, parts.length = front.count c ∧ parts.flatMap (· ++ [c]) = front ∧
      ∀ more, splitOn c (front ++ more) = parts ++ splitOn c more := by
  cases hlast : front.getLast? with
  | none =>
    obtain rfl := List.getLast?_eq_none_iff.1 hlast
    exact ⟨[], rfl, rfl, fun _ ↦ rfl⟩
  | some e =>
    obtain rfl := ends e hlast
    obtain ⟨text, rfl⟩ := List.getLast?_eq_some_iff.1 hlast
    refine ⟨splitOn e text, ?_, flatMap_splitOn e text, fun more ↦ ?_⟩
    · rw [length_splitOn, List.count_append, List.count_singleton_self]
    · rw [List.append_assoc, List.singleton_append, splitOn_append]

/-- A character of the `i`-th part stands behind `i` dividing characters. -/
theorem exists_of_mem_getElem?_splitOn {c e : Char} {text part : List Char} {i : Nat}
    (h : (splitOn c text)[i]? = some part) (he : e ∈ part) :
    ∃ front behind, text = front ++ e :: behind ∧ front.count c = i := by
  induction text generalizing i part with
  | nil =>
    obtain rfl := List.mem_singleton.1 (List.mem_of_getElem? h)
    simp at he
  | cons d rest ih =>
    rw [splitOn] at h
    split at h
    · next hd =>
      cases i with
      | zero =>
        obtain rfl := Option.some_inj.1 h
        simp at he
      | succ i =>
        obtain ⟨front, behind, hrest, hcount⟩ := ih h he
        exact ⟨d :: front, behind, by rw [hrest, List.cons_append], by simp [hd, hcount]⟩
    · next hd =>
      cases hs : splitOn c rest with
      | nil => exact absurd hs (splitOn_ne_nil c rest)
      | cons first others =>
        rw [hs] at h ih
        -- The first part is that of the rest with one character more in front.
        have inRest {part : List Char} (h : (first :: others)[i]? = some part) (he : e ∈ part) :
            ∃ front behind, d :: rest = front ++ e :: behind ∧ front.count c = i := by
          obtain ⟨front, behind, hrest, hcount⟩ := ih h he
          exact ⟨d :: front, behind, by rw [hrest, List.cons_append],
            by rw [List.count_cons_of_ne hd, hcount]⟩
        cases i with
        | zero =>
          obtain rfl := Option.some_inj.1 h
          rcases List.mem_cons.1 he with rfl | he
          · exact ⟨[], rest, rfl, rfl⟩
          · exact inRest rfl he
        | succ i => exact inRest h he

/-! ### What follows a word -/

theorem after?_eq_some_iff {word text rest : List Char} :
    after? word text = some rest ↔ text = word ++ rest := by
  induction word generalizing text with
  | nil => simp [after?]
  | cons c word ih =>
    cases text with
    | nil => simp [after?]
    | cons d text =>
      rw [after?]
      split
      · next h => subst h; simp [ih]
      · next h => simp [Ne.symm h]

end ShellCatalog
