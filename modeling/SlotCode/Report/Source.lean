import SlotCode.Source.LineMap

/-!
# Source texts

A text together with its line map, as reports use it.  An offset past the end of the text is taken to
be the end.
-/

namespace SlotCode

structure SourceText where
  text : String
  lines : LineMap

namespace SourceText

def ofText (text : String) : SourceText :=
  { text := text, lines := .ofText text }

/-- Number of bytes of the text. -/
def size (s : SourceText) : Nat :=
  byteLength s.text.toList

/-- The offset, or the end of the text if that comes first. -/
def clamp (s : SourceText) (offset : Nat) : Nat :=
  min offset s.size

def position (s : SourceText) (offset : Nat) : Position :=
  s.lines.position (s.clamp offset)

/-- The text of a line; a line that does not exist is empty. -/
def line (s : SourceText) (number : Nat) : String :=
  (s.lines.lineText? s.text number).getD ""

end SourceText

end SlotCode
