import ShellCatalog.Listing.Cell

/-!
# Coloured text

A style is written as a control sequence in front of a text (`Style.on`) and undone by another
behind it (`Style.off`). The text in between is padded, so the sequences do not count in the width
of a cell.

A sequence that undoes a style undoes every style. A text that holds one itself has the style
switched on again behind that place (`Style.restore`), and these sequences do count. Without colours
a text is padded and nothing else (`Style.paint_without_colors`).
-/

namespace ShellCatalog.Listing

/-- How strongly a text is shown. -/
inductive Weight
  | bold
  | dimmed
  deriving DecidableEq, Repr

/-- The colours that the listing uses. -/
inductive Color
  | green
  | yellow
  | blue
  | cyan
  | white
  deriving DecidableEq, Repr

/-- How a text is shown. -/
structure Style where
  weight : Option Weight
  color : Option Color
  deriving DecidableEq, Repr

/-- The number of a weight in a control sequence. -/
def Weight.code : Weight → String
  | .bold => "1"
  | .dimmed => "2"

/-- The number of a colour in a control sequence. -/
def Color.code : Color → String
  | .green => "32"
  | .yellow => "33"
  | .blue => "34"
  | .cyan => "36"
  | .white => "37"

namespace Style

/-- Text without a style. -/
def plain : Style :=
  ⟨none, none⟩

/-- Bold text. -/
def bold : Style :=
  ⟨some .bold, none⟩

/-- Dimmed text. -/
def dimmed : Style :=
  ⟨some .dimmed, none⟩

/-- Text in a colour. -/
def colored (c : Color) : Style :=
  ⟨none, some c⟩

/-- Bold text in a colour. -/
def boldColored (c : Color) : Style :=
  ⟨some .bold, some c⟩

/-- The sequence that switches a style on. -/
def on (s : Style) : List Char :=
  let codes := (s.weight.map Weight.code).toList ++ (s.color.map Color.code).toList
  ['\x1b', '['] ++ (";".intercalate codes).toList ++ ['m']

/-- The sequence that switches every style off. -/
def off : List Char :=
  ['\x1b', '[', '0', 'm']

/-- A text with a sequence put behind every sequence that switches styles off. -/
def restore (sequence : List Char) : List Char → List Char
  | '\x1b' :: '[' :: '0' :: 'm' :: rest => off ++ sequence ++ restore sequence rest
  | [] => []
  | c :: rest => c :: restore sequence rest

/-- A text in a style and padded to a width; without colours the style does not show. -/
def paint (s : Style) (colors : Bool) (text : List Char) (width : Nat := 0) : List Char :=
  if colors ∧ s ≠ plain then s.on ++ pad width (restore s.on text) ++ off else pad width text

@[simp] theorem paint_without_colors (s : Style) (text : List Char) (width : Nat) :
    s.paint false text width = pad width text := by
  simp [paint]

end Style

end ShellCatalog.Listing
