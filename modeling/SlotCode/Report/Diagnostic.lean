import SlotCode.Source.Span

/-!
# Diagnostics

What is shown to the author of a program: a message, places in the source with remarks on them, and
advice.
-/

namespace SlotCode

inductive Severity where
  | error
  | warning
  | note
deriving DecidableEq

def Severity.word : Severity → String
  | .error => "error"
  | .warning => "warning"
  | .note => "note"

inductive LabelStyle where
  /-- Where the error is. -/
  | primary
  /-- A place that has to do with it. -/
  | secondary
deriving DecidableEq

def LabelStyle.word : LabelStyle → String
  | .primary => "primary"
  | .secondary => "secondary"

/-- A place in the source and a remark on it. -/
structure Label where
  span : Span
  style : LabelStyle
  message : Option String
deriving DecidableEq

structure Diagnostic where
  severity : Severity
  code : Option String
  message : String
  labels : List Label
  notes : List String
  help : Option String
deriving DecidableEq

namespace Diagnostic

/-- An error with a code and nothing else to show. -/
def ofCode (code message : String) : Diagnostic :=
  { severity := .error, code := some code, message := message, labels := [], notes := [],
    help := none }

def withLabel (d : Diagnostic) (style : LabelStyle) (span : Span) (message : String) : Diagnostic :=
  { d with labels := d.labels ++ [⟨span, style, some message⟩] }

def withPrimary (d : Diagnostic) (span : Span) (message : String) : Diagnostic :=
  d.withLabel .primary span message

def withSecondary (d : Diagnostic) (span : Span) (message : String) : Diagnostic :=
  d.withLabel .secondary span message

def withNote (d : Diagnostic) (note : String) : Diagnostic :=
  { d with notes := d.notes ++ [note] }

def withHelp (d : Diagnostic) (help : String) : Diagnostic :=
  { d with help := some help }

/-- The label that tells where the diagnostic is: the first primary one, or else the first. -/
def mainLabel? (d : Diagnostic) : Option Label :=
  (d.labels.find? fun l => l.style = .primary).or d.labels.head?

def mainSpan? (d : Diagnostic) : Option Span :=
  d.mainLabel?.map Label.span

end Diagnostic

end SlotCode
