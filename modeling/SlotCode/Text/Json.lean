/-!
# Indented JSON

JSON values with fields in a fixed order, written one item a line with two blanks for each level.
An empty list or record stays on its line.
-/

namespace SlotCode.Text

inductive Json where
  | num (value : Nat)
  | bool (value : Bool)
  | str (value : String)
  | list (items : List Json)
  | record (fields : List (String × Json))

namespace Json

/-- How a character is written in a string: quote, backslash and the controls are escaped. -/
def escaped (c : Char) : List Char :=
  if c = '"' then ['\\', '"']
  else if c = '\\' then ['\\', '\\']
  else if c = '\x08' then ['\\', 'b']
  else if c = '\x0c' then ['\\', 'f']
  else if c = '\n' then ['\\', 'n']
  else if c = '\r' then ['\\', 'r']
  else if c = '\t' then ['\\', 't']
  else if c.toNat < 0x20 then
    ['\\', 'u', '0', '0', Nat.digitChar (c.toNat / 16), Nat.digitChar (c.toNat % 16)]
  else [c]

def quoted (s : String) : String :=
  String.ofList ('"' :: s.toList.flatMap escaped ++ ['"'])

/-- A line break and the margin of the next line. -/
def newline (depth : Nat) : String :=
  String.ofList ('\n' :: List.replicate (2 * depth) ' ')

mutual

def text (depth : Nat) : Json → String
  | .num value => toString value
  | .bool value => if value then "true" else "false"
  | .str value => quoted value
  | .list [] => "[]"
  | .list items => "[" ++ ",".intercalate (itemTexts (depth + 1) items) ++ newline depth ++ "]"
  | .record [] => "{}"
  | .record fields =>
    r"{" ++ ",".intercalate (fieldTexts (depth + 1) fields) ++ newline depth ++ r"}"

def itemTexts (depth : Nat) : List Json → List String
  | [] => []
  | item :: items => (newline depth ++ text depth item) :: itemTexts depth items

def fieldTexts (depth : Nat) : List (String × Json) → List String
  | [] => []
  | field :: fields =>
    (newline depth ++ fieldText depth field) :: fieldTexts depth fields

def fieldText (depth : Nat) : String × Json → String
  | (name, value) => quoted name ++ ": " ++ text depth value

end

def render (json : Json) : String :=
  json.text 0

end Json

end SlotCode.Text
