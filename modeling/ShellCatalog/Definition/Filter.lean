import ShellCatalog.Definition.Basic
import ShellCatalog.Text.Split

/-!
# Choosing definitions

The words by which a user names a kind, and the filter that decides which definitions are shown.
Both parts of a filter are optional, and a filter without either shows everything
(`Filter.accepts`).

A name is chosen by a text that occurs in it, with regard to case. `occursIn` looks for the text at
one place after the other, and `occursIn_iff` says what it finds: a place with something in front of
it and something behind it.
-/

namespace ShellCatalog

/-- The kind that a word typed by a user names, in any case. -/
def Kind.ofUserName? (text : String) : Option Kind :=
  let word := String.ofList (lowerWord text.toList)
  if word ∈ ["a", "alias"] then some .alias
  else if word ∈ ["f", "func", "function"] then some .function
  else none

/-- The answer to a word that names no kind. -/
def Kind.unknownMessage (text : String) : String :=
  "Unknown definition kind: " ++ text

/-- The text stands somewhere in the other. -/
def occursIn (part : List Char) : List Char → Bool
  | [] => part.isEmpty
  | c :: rest => (after? part (c :: rest)).isSome || occursIn part rest

/-- Which definitions are shown: those of a kind, if one is given, whose name holds a text, if one
is given. -/
structure Filter where
  kind : Option Kind
  name : Option String
  deriving DecidableEq, Repr

/-- A definition of this kind and name is shown. -/
def Filter.accepts (f : Filter) (kind : Kind) (name : String) : Bool :=
  f.kind.all (· == kind) && f.name.all fun part ↦ occursIn part.toList name.toList

/-- A text occurs in another when something stands before it and something behind it. -/
theorem occursIn_iff {part text : List Char} :
    occursIn part text = true ↔ ∃ before behind, text = before ++ part ++ behind := by
  induction text with
  | nil => simp [occursIn, List.isEmpty_iff]
  | cons c rest ih =>
    rw [occursIn, Bool.or_eq_true, ih, Option.isSome_iff_exists]
    constructor
    · rintro (⟨behind, h⟩ | ⟨before, behind, rfl⟩)
      · exact ⟨[], behind, after?_eq_some_iff.1 h⟩
      · exact ⟨c :: before, behind, rfl⟩
    · rintro ⟨before, behind, h⟩
      cases before with
      | nil => exact Or.inl ⟨behind, after?_eq_some_iff.2 h⟩
      | cons d before =>
        simp only [List.cons_append, List.cons.injEq] at h
        exact Or.inr ⟨before, behind, h.2⟩

end ShellCatalog
