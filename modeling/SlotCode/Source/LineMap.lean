/-!
# Line maps

A line map lists the byte offset at which each line of a text begins.  It turns a byte offset into
a line and a column, both counted from 1, and finds the text of a line.

All of these numbers are 32-bit words, and one that is too large is cut down to its low 32 bits
(`toWord`).  So a text should be shorter than `2^32` bytes; in a longer one the starts of the lines
need not increase, and there is no telling which of them an offset is counted from.
-/

namespace SlotCode

/-- A line and a column, both counted from 1; the column counts bytes. -/
structure Position where
  line : Nat
  column : Nat
deriving DecidableEq

/-- Where each line begins.  The first line begins at 0, so the list is never empty. -/
structure LineMap where
  starts : List Nat
deriving DecidableEq

/-- The low 32 bits of a number. -/
def toWord (n : Nat) : Nat :=
  n % Nat.pow 2 32

/-! ## Bytes of a text -/

/-- Number of bytes that the characters take. -/
def byteLength (cs : List Char) : Nat :=
  cs.foldr (fun c n => c.utf8Size + n) 0

/-- Cuts after `n` bytes.  There is no cut inside a character or past the end. -/
def cutBytes? : Nat → List Char → Option (List Char × List Char)
  | 0, cs => some ([], cs)
  | _ + 1, [] => none
  | n + 1, c :: cs =>
    if c.utf8Size ≤ n + 1 then
      (cutBytes? (n + 1 - c.utf8Size) cs).map fun cut => (c :: cut.1, cut.2)
    else
      none

/-- The characters from byte `start` up to byte `stop`, if both are places between characters. -/
def sliceBytes? (cs : List Char) (start stop : Nat) : Option (List Char) :=
  if start ≤ stop then
    (cutBytes? start cs).bind fun cut => (cutBytes? (stop - start) cut.2).map Prod.fst
  else
    none

/-! ## The map -/

namespace LineMap

/-- Starts of the lines after the first, for text whose first byte has offset `offset`. -/
def startsFrom (offset : Nat) : List Char → List Nat
  | [] => []
  | c :: cs =>
    if c = '\n' then
      (offset + c.utf8Size) :: startsFrom (offset + c.utf8Size) cs
    else
      startsFrom (offset + c.utf8Size) cs

def ofText (text : String) : LineMap :=
  { starts := 0 :: (startsFrom 0 text.toList).map toWord }

def lineCount (m : LineMap) : Nat :=
  toWord m.starts.length

/-- The line whose start is the last one at or before the offset, and the distance from there. -/
def position (m : LineMap) (offset : Nat) : Position :=
  let offset := toWord offset
  let before := m.starts.takeWhile (· ≤ offset)
  { line := toWord before.length, column := toWord (offset - before.getLastD 0 + 1) }

/-- The text of a line without its line break.  The text asked need not be the one that the map
was made from, so the line may lie outside it. -/
def lineText? (m : LineMap) (text : String) (line : Nat) : Option String :=
  match line with
  | 0 => none
  | index + 1 =>
    m.starts[index]?.bind fun start =>
      let stop := match m.starts[index + 1]? with
        | some next => next - 1
        | none => byteLength text.toList
      (sliceBytes? text.toList start stop).map String.ofList

end LineMap

end SlotCode
