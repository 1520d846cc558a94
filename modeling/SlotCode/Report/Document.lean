import SlotCode.Report.Diagnostic
import SlotCode.Report.Registry
import SlotCode.Report.Source
import SlotCode.Text.Json

/-!
# Reports for tools

All diagnostics of a run as one JSON document, with every place given as line, column and offset and
with the lines that the places are on.  What is absent is left out.
-/

namespace SlotCode.Document

open Text (Json)

def placeFields (source : SourceText) (offset : Nat) : List (String × Json) :=
  let position := source.position offset
  [("line", .num position.line), ("column", .num position.column),
    ("byte_offset", .num (source.clamp offset))]

def lineField (source : SourceText) (offset : Nat) : String × Json :=
  ("source_line", .str (source.line (source.position offset).line))

/-- A field that is left out if there is no value for it. -/
def optional (name : String) (value : Option Json) : List (String × Json) :=
  (value.map fun value => (name, value)).toList

def optionalText (name : String) (value : Option String) : List (String × Json) :=
  optional name (value.map .str)

def label (source : SourceText) (l : Label) : Json :=
  .record <|
    [("role", .str l.style.word)]
      ++ optionalText "message" l.message
      ++ [("start", .record (placeFields source l.span.start)),
        ("end", .record (placeFields source l.span.stop)),
        lineField source l.span.start]

def diagnostic (source : SourceText) (d : Diagnostic) : Json :=
  let category := d.code.bind fun code => (findCode? code).map fun entry => entry.category.word
  let location := d.mainSpan?.map fun span =>
    Json.record (placeFields source span.start ++ [lineField source span.start])
  let notes := if d.notes.isEmpty then none else some (Json.list (d.notes.map .str))
  .record <|
    [("severity", .str d.severity.word)]
      ++ optionalText "code" d.code
      ++ optionalText "category" category
      ++ [("message", .str d.message)]
      ++ optional "location" location
      ++ [("labels", .list (d.labels.map (label source)))]
      ++ optional "notes" notes
      ++ optionalText "help" d.help

def countOf (severity : Severity) (ds : List Diagnostic) : Nat :=
  ds.countP fun d => d.severity = severity

/-- The document of a run.  A run succeeds if it has no errors. -/
def report (source : SourceText) (file phase : String) (ds : List Diagnostic) : Json :=
  let errors := countOf .error ds
  .record [("version", .num 1), ("file", .str file), ("success", .bool (errors = 0)),
    ("phase", .str phase), ("diagnostics", .list (ds.map (diagnostic source))),
    ("error_count", .num errors), ("warning_count", .num (countOf .warning ds))]

def render (source : SourceText) (file : Option String) (phase : Option String)
    (ds : List Diagnostic) : String :=
  (report source (file.getD "main.ok") (phase.getD "flatten") ds).render

end SlotCode.Document
