import ShellCatalog.Nesting.Basic

/-!
# Announcing and ending here-documents

A here-document is announced by `<<` or `<<-` and a word, and its body is every following line up to
one that equals the word.

* `HereDoc.delimiterFrom` reads the word. Quotes are dropped, and so is a backslash outside quotes,
  which keeps the character behind it; nothing else in the word is interpreted. The word ends at a
  blank or at a character that separates or redirects, and a quote that is left open runs to the end
  of the text, newlines included. No line can equal a word that holds a newline.
* `HereDoc.announced?` reads an announcement. Behind `<<<` stands a single word and no document, and
  an empty word announces none.
* `HereDoc.isEndedBy` says which line ends a body: the word itself, behind any number of tabs if the
  announcement has a hyphen.

An announcement is read in one go from the text behind its first character. The reader of characters
then walks over it as over any code, and only the document in the queue is left of it.
-/

namespace ShellCatalog.HereDoc

/-- A character that ends an unquoted delimiter word. -/
def endsWord (c : Char) : Bool :=
  isSpace c || c ∈ [';', '|', '&', '<', '>', '(', ')']

/-- Reads a delimiter word inside the quote `quote`, or outside any. Quotes are dropped, a backslash
outside quotes is dropped and keeps the character after it, and a quote left open runs to the end of
the text. -/
def delimiterFrom (quote : Option Char) : List Char → List Char
  | [] => []
  | c :: rest =>
    match quote with
    | some q => if c = q then delimiterFrom none rest else c :: delimiterFrom quote rest
    | none =>
      if c = '\'' ∨ c = '"' then delimiterFrom (some c) rest
      else if c = '\\' then
        match rest with
        | [] => []
        | d :: rest' => d :: delimiterFrom none rest'
      else if endsWord c then []
      else c :: delimiterFrom none rest

/-! ### The delimiter character by character -/

@[simp] theorem delimiterFrom_nil (quote : Option Char) : delimiterFrom quote [] = [] := by
  cases quote <;> rfl

theorem delimiterFrom_quoted (q c : Char) (rest : List Char) :
    delimiterFrom (some q) (c :: rest) =
      if c = q then delimiterFrom none rest else c :: delimiterFrom (some q) rest := by
  rw [delimiterFrom]

theorem delimiterFrom_backslash (d : Char) (rest : List Char) :
    delimiterFrom none ('\\' :: d :: rest) = d :: delimiterFrom none rest := by
  simp [delimiterFrom]

theorem delimiterFrom_of_ne {c : Char} (rest : List Char) (h : c ≠ '\\') :
    delimiterFrom none (c :: rest) =
      if c = '\'' ∨ c = '"' then delimiterFrom (some c) rest
      else if endsWord c then [] else c :: delimiterFrom none rest := by
  cases rest <;> simp [delimiterFrom, h]

/-! ### Announcements -/

/-- The here-document whose delimiter word follows `<<` or `<<-`; none when the word is empty. -/
def await? (ignoresTabs : Bool) (line : Nat) (rest : List Char) : Option HereDoc :=
  match delimiterFrom none (rest.dropWhile isIndent) with
  | [] => none
  | word => some ⟨word, ignoresTabs, line⟩

/-- The here-document that a text announces on `line`, when it begins with `<<` but not with `<<<`
and a delimiter word follows. -/
def announced? (line : Nat) : List Char → Option HereDoc
  | '<' :: '<' :: '<' :: _ => none
  | '<' :: '<' :: '-' :: rest => await? true line rest
  | '<' :: '<' :: rest => await? false line rest
  | _ => none

/-- The line of text ends the body of `doc`. -/
def isEndedBy (doc : HereDoc) (line : List Char) : Bool :=
  (if doc.ignoresTabs then line.dropWhile (· == '\t') else line) == doc.delimiter

theorem announced?_of_ne {line : Nat} {text : List Char} (h : ∀ rest, text ≠ '<' :: '<' :: rest) :
    announced? line text = none := by
  unfold announced?
  split
  · rfl
  · exact absurd rfl (h _)
  · exact absurd rfl (h _)
  · rfl

theorem announced?_of_head_ne {line : Nat} {text : List Char} (bar : text.head? ≠ some '<')
    (tabs : text.head? ≠ some '-') :
    announced? line ('<' :: '<' :: text) = await? false line text := by
  unfold announced?
  split
  · next heq =>
    cases heq
    exact absurd rfl bar
  · next heq =>
    cases heq
    exact absurd rfl tabs
  · next heq =>
    cases heq
    rfl
  · next h => exact absurd rfl (h _)

/-- A here-document that is awaited has a word to wait for, and carries the line on which it was
announced. -/
theorem of_await? {ignoresTabs : Bool} {line : Nat} {rest : List Char} {doc : HereDoc}
    (h : await? ignoresTabs line rest = some doc) : doc.delimiter ≠ [] ∧ doc.line = line := by
  unfold await? at h
  split at h
  · simp at h
  · next hne => cases h; exact ⟨hne, rfl⟩

/-- The word that is waited for stands behind the blanks. -/
theorem delimiter_of_await? {ignoresTabs : Bool} {line : Nat} {rest : List Char} {doc : HereDoc}
    (h : await? ignoresTabs line rest = some doc) :
    doc.delimiter = delimiterFrom none (rest.dropWhile isIndent) := by
  unfold await? at h
  split at h
  · simp at h
  · cases h; rfl

theorem of_announced? {line : Nat} {text : List Char} {doc : HereDoc}
    (h : announced? line text = some doc) : doc.delimiter ≠ [] ∧ doc.line = line := by
  unfold announced? at h
  split at h
  · simp at h
  · exact of_await? h
  · exact of_await? h
  · simp at h

end ShellCatalog.HereDoc
