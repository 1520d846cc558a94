/-!
# Styled terminal text

Colour and weight are switched on by an escape sequence in front of a text and switched off by the
reset sequence behind it.  Where the text holds a reset of its own, the style is switched on again.
-/

namespace SlotCode.Text

inductive Colour where
  | red
  | yellow
  | blue
  | cyan
deriving DecidableEq

def Colour.code : Colour → String
  | .red => "31"
  | .yellow => "33"
  | .blue => "34"
  | .cyan => "36"

inductive Style where
  | bold
  | coloured (colour : Colour)
  | boldColoured (colour : Colour)
deriving DecidableEq

namespace Style

def reset : List Char :=
  ['\x1b', '[', '0', 'm']

/-- The sequence that switches the style on. -/
def opening : Style → List Char
  | .bold => "\x1b[1m".toList
  | .coloured colour => ("\x1b[" ++ colour.code ++ "m").toList
  | .boldColoured colour => ("\x1b[1;" ++ colour.code ++ "m").toList

/-- Puts `again` behind every reset of a text. -/
def resume (again : List Char) : List Char → List Char
  | '\x1b' :: '[' :: '0' :: 'm' :: cs => reset ++ again ++ resume again cs
  | c :: cs => c :: resume again cs
  | [] => []

/-- The text in the style; without colours it is the text itself. -/
def paint (colours : Bool) (style : Style) (text : String) : String :=
  if colours then
    String.ofList (style.opening ++ resume style.opening text.toList ++ reset)
  else
    text

end Style

end SlotCode.Text
