/-
  Styled text for terminals.

  A style is a list of attributes and a colour.  Styled text is framed by control sequences, and
  where the text itself holds the sequence that ends a style, the style is taken up again behind
  it.  Without colours, styled text is the text.
-/
import Deadwood.Text.Pieces

namespace Deadwood

/-- A colour of text. -/
inductive Colour where
  | red
  | green
  | yellow
  | blue
  | cyan
  deriving DecidableEq, Repr

/-- The code of a colour in control sequences. -/
def Colour.code : Colour → String
  | red => "31"
  | green => "32"
  | yellow => "33"
  | blue => "34"
  | cyan => "36"

/-- The style of a piece of text. -/
structure Style where
  bold : Bool := false
  dimmed : Bool := false
  colour : Option Colour := none
  deriving DecidableEq, Repr

namespace Style

/-- Bold text in a colour. -/
def strong (c : Colour) : Style := { bold := true, colour := some c }

/-- Text in a colour. -/
def coloured (c : Colour) : Style := { colour := some c }

/-- Text in the background. -/
def faint : Style := { dimmed := true }

/-- The control sequence that ends every style. -/
def reset : String := "\x1b[0m"

/-- The control sequence that begins a style. -/
def opening (s : Style) : String :=
  let codes := (if s.bold then ["1"] else []) ++ (if s.dimmed then ["2"] else []) ++
    (s.colour.map Colour.code).toList
  "\x1b[" ++ String.intercalate ";" codes ++ "m"

/-- A text in a style, where `colours` says whether the terminal shows styles. -/
def apply (s : Style) (colours : Bool) (text : String) : String :=
  if colours then
    let pieces := (Text.splitOnText reset.toList text.toList).map String.ofList
    s.opening ++ String.intercalate (reset ++ s.opening) pieces ++ reset
  else text

example : (strong .yellow).apply true "x" = "\x1b[1;33mx\x1b[0m" := by decide

end Style

end Deadwood
