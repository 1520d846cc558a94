import SlotCode.Text.Hidden

/-!
# Quoted text

A text between double quotes, on one line and with every character visible.  A quote and a backslash
get a backslash in front, tab, line feed, carriage return and the null character have a letter, and
the other hidden characters are written as their code point.
-/

namespace SlotCode.Text

/-- How a character is written between quotes. -/
def escaped (c : Char) : List Char :=
  if c = '"' then ['\\', '"']
  else if c = '\\' then ['\\', '\\']
  else if c = '\t' then ['\\', 't']
  else if c = '\n' then ['\\', 'n']
  else if c = '\r' then ['\\', 'r']
  else if c = '\x00' then ['\\', '0']
  else if isHidden c then ['\\', 'u', '{'] ++ Nat.toDigits 16 c.toNat ++ ['}']
  else [c]

def quoted (s : String) : String :=
  String.ofList ('"' :: s.toList.flatMap escaped ++ ['"'])

end SlotCode.Text
