/-!
# Coloured output

A styled text stands between an escape sequence with the codes of its style and one that resets
them. Without colours it is the plain text.
-/

namespace LocaleTidy.CommandLine

inductive Colour where
  | red
  | green
  | yellow
  | cyan
  deriving DecidableEq, Repr

def Colour.code : Colour → String
  | .red => "31"
  | .green => "32"
  | .yellow => "33"
  | .cyan => "36"

structure Style where
  bold : Bool
  dimmed : Bool
  colour : Option Colour
  deriving DecidableEq, Repr

namespace Style

def plain : Style := ⟨false, false, none⟩

def of (colour : Colour) : Style := { plain with colour := some colour }

def strong (colour : Colour) : Style := { of colour with bold := true }

def faint : Style := { plain with dimmed := true }

/-- The codes of a style; the colour comes last. -/
def codes (style : Style) : List String :=
  (if style.bold then ["1"] else []) ++ (if style.dimmed then ["2"] else []) ++
    (style.colour.map Colour.code).toList

def opening (style : Style) : String :=
  "\x1b[" ++ String.intercalate ";" style.codes ++ "m"

def reset : String := "\x1b[0m"

/-- A text in a style. After a reset in the text itself the style is taken up again. -/
def paint (coloured : Bool) (style : Style) (text : String) : String :=
  if coloured then style.opening ++ text.replace reset (reset ++ style.opening) ++ reset else text

end Style

end LocaleTidy.CommandLine
