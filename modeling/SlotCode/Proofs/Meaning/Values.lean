import SlotCode.Code.Command

/-!
# Values at run time

Two kinds of values meet in the meaning of a program.  A tree computes with *contents* (`Content`),
which nest as its types do.  Flat code computes with *words* (`Word`), one for each slot.  The words
of a content are its parts that are not tuples, in order:

    words (tuple [a, b])      = words a ++ words b
    words (box (some a))      = [box (some (words a))]

A box is one word, whatever it holds: it holds the words of its payload.  A list is a box around the
pair of an item and a list, in a tree as in code.
-/

namespace SlotCode

/-- What operators work on. -/
inductive Datum where
  | int (value : Int)
  | bool (value : Bool)
  | str (value : String)
deriving DecidableEq

/-- An interpretation of the operators: what an operator folded over operands gives.  Nothing is
assumed of it. -/
abbrev Arithmetic := ArithOp → List Datum → Datum

def CmpOp.holds : CmpOp → Int → Int → Bool
  | .lt, a, b => a < b
  | .le, a, b => a ≤ b
  | .gt, a, b => b < a
  | .ge, a, b => b ≤ a
  | .eq, a, b => a = b

/-- A value of the source language. -/
inductive Content where
  /-- The only value of type `void`. -/
  | nothing
  | datum (value : Datum)
  | tuple (items : List Content)
  | box (payload : Option Content)

/-- A value that fits into one slot. -/
inductive Word where
  | nothing
  | datum (value : Datum)
  | box (payload : Option (List Word))

namespace Content

def datum? : Content → Option Datum
  | .datum value => some value
  | _ => none

mutual

/-- The slots that a content is spread over. -/
def words : Content → List Word
  | .nothing => [.nothing]
  | .datum value => [.datum value]
  | .tuple items => wordsAll items
  | .box payload => [.box (wordsIn payload)]

def wordsAll : List Content → List Word
  | [] => []
  | item :: items => words item ++ wordsAll items

def wordsIn : Option Content → Option (List Word)
  | none => none
  | some payload => some (words payload)

end

/-- The words that a function returns: none if it returns nothing. -/
def returned : Content → List Word
  | .nothing => []
  | content => content.words

end Content

def Word.datum? : Word → Option Datum
  | .datum value => some value
  | _ => none

end SlotCode
