import SlotCode.Report.Diagnostic
import SlotCode.Report.Source
import SlotCode.Text.Ansi

/-!
# Diagnostics on a terminal

A diagnostic is laid out as rows, and each row is a line of text:

    error[E0308]: mismatched types
      --> main.ok:3:12
        |
      3 |     let x = (1, f(y))
        |             -   ^^^^ expected `Integer`, found `String`
        = help: ...

The rows in the middle show the lines on which labels begin, in increasing order, each with the marks
of its labels below it.  Columns count bytes.
-/

namespace SlotCode.Terminal

/-! ## Marked lines -/

/-- The mark of a label on its line, from column `first` up to, and not including, column `stop`. -/
structure Mark where
  first : Nat
  stop : Nat
  style : LabelStyle
  message : Option String

/-- A line of the source on which labels begin. -/
structure MarkedLine where
  number : Nat
  text : String
  marks : List Mark

/-- The mark of a label.  A label that runs on is cut at the end of its line, and every label marks
at least one column. -/
def markOf (source : SourceText) (label : Label) : Mark :=
  let start := source.position label.span.start
  let stop := source.position label.span.stop
  let column :=
    if stop.line = start.line then stop.column
    else byteLength (source.line start.line).toList + 1
  { first := start.column, stop := max column (start.column + 1), style := label.style,
    message := label.message }

/-- Adds a mark to the line of that number, which is put in its place if it is new. -/
def addMark (number : Nat) (text : String) (m : Mark) : List MarkedLine → List MarkedLine
  | [] => [⟨number, text, [m]⟩]
  | line :: lines =>
    if number < line.number then
      ⟨number, text, [m]⟩ :: line :: lines
    else if number = line.number then
      { line with marks := line.marks ++ [m] } :: lines
    else
      line :: addMark number text m lines

/-- The lines on which labels begin, in increasing order. -/
def markedLines (source : SourceText) (labels : List Label) : List MarkedLine :=
  labels.foldl (fun lines label =>
    let number := (source.position label.span.start).line
    addMark number (source.line number) (markOf source label) lines) []

/-! ## Cells -/

/-- Puts a mark in front of those that begin at its column or later. -/
def insertByColumn (m : Mark) : List Mark → List Mark
  | [] => [m]
  | n :: ns => if m.first ≤ n.first then m :: n :: ns else n :: insertByColumn m ns

/-- In the order of their first columns; marks that begin at one column keep their order. -/
def sortByColumn (ms : List Mark) : List Mark :=
  ms.foldr insertByColumn []

/-- The primary marks before the secondary ones, both in the order of their columns. -/
def inOrder (ms : List Mark) : List Mark :=
  sortByColumn (ms.filter fun m => m.style = .primary)
    ++ sortByColumn (ms.filter fun m => m.style = .secondary)

/-- What stands at a column below the line: the last of the marks that cover it. -/
def cellAt (ms : List Mark) (column : Nat) : Option LabelStyle :=
  (ms.reverse.find? fun m => m.first ≤ column ∧ column < m.stop).map Mark.style

/-- How many columns have room for marks: the line and a little more. -/
def cellCount (line : MarkedLine) : Nat :=
  byteLength line.text.toList + 10

/-- What stands below a line from column 1 on, up to the last mark. -/
def cells (line : MarkedLine) : List (Option LabelStyle) :=
  let all := (List.range (cellCount line)).map fun i => cellAt (inOrder line.marks) (i + 1)
  (all.reverse.dropWhile Option.isNone).reverse

/-- A remark, and how far from the margin its mark begins. -/
structure Remark where
  indent : Nat
  style : LabelStyle
  message : String

def remarks (line : MarkedLine) : List Remark :=
  (inOrder line.marks).filterMap fun m =>
    m.message.map fun message => ⟨min (m.first - 1) (cellCount line), m.style, message⟩

/-! ## Rows -/

inductive Row where
  | header (severity : Severity) (code : Option String) (message : String)
  | place (file : String) (position : Position)
  /-- The margin alone. -/
  | edge
  /-- Lines were left out. -/
  | gap
  | source (number : Nat) (text : String)
  /-- The marks of a line, with the remark if there is only one. -/
  | marks (cells : List (Option LabelStyle)) (remark : Option Remark)
  /-- A remark on a row of its own, below its mark. -/
  | remark (remark : Remark)
  | footer (word text : String)

/-- The rows below a line.  The remark of the rightmost mark comes first. -/
def markRows (line : MarkedLine) : List Row :=
  match cells line, remarks line with
  | [], _ => []
  | cells, [remark] => [.marks cells (some remark)]
  | cells, remarks => .marks cells none :: remarks.reverse.map .remark

/-- The rows of the lines, where `previous` is the line shown before. -/
def lineRows (previous : Option Nat) : List MarkedLine → List Row
  | [] => []
  | line :: lines =>
    let gap := match previous with
      | some number => if number + 1 < line.number then [Row.gap] else []
      | none => []
    gap ++ .source line.number line.text :: markRows line ++ lineRows (some line.number) lines

def footerRows (d : Diagnostic) : List Row :=
  d.notes.map (.footer "note") ++ (d.help.map (Row.footer "help")).toList

/-- The rows of a diagnostic; without labels there is nothing to show of the source. -/
def rows (source : SourceText) (file : String) (d : Diagnostic) : List Row :=
  let body := match d.mainSpan? with
    | none => []
    | some span =>
      .place file (source.position span.start) :: .edge
        :: lineRows none (markedLines source d.labels)
  .header d.severity d.code d.message :: body ++ footerRows d

/-! ## Text -/

open Text (Style)

def spaces (count : Nat) : String :=
  String.ofList (List.replicate count ' ')

/-- Width of the line numbers: the digits of the last line, and two at least. -/
def gutterWidth (lines : List MarkedLine) : Nat :=
  let last := (lines.getLast?.map MarkedLine.number).getD 1
  max (toString last).length 2

def severityStyle : Severity → Style
  | .error => .boldColoured .red
  | .warning => .boldColoured .yellow
  | .note => .boldColoured .blue

def labelStyle : LabelStyle → Style
  | .primary => .boldColoured .red
  | .secondary => .coloured .blue

def markChar : Option LabelStyle → Char
  | some .primary => '^'
  | some .secondary => '-'
  | none => ' '

/-- A run of equal marks. -/
def runText (colours : Bool) (mark : Option LabelStyle) (count : Nat) : String :=
  let text := String.ofList (List.replicate count (markChar mark))
  match mark with
  | some style => (labelStyle style).paint colours text
  | none => text

/-- Marks with each run of equal ones styled as one; `count` marks like `mark` came before. -/
def runsText (colours : Bool) (mark : Option LabelStyle) (count : Nat) :
    List (Option LabelStyle) → String
  | [] => runText colours mark count
  | cell :: cells =>
    if cell = mark then
      runsText colours mark (count + 1) cells
    else
      runText colours mark count ++ runsText colours cell 1 cells

def marksText (colours : Bool) : List (Option LabelStyle) → String
  | [] => ""
  | cell :: cells => runsText colours cell 1 cells

def Row.text (colours : Bool) (gutter : Nat) : Row → String
  | .header severity code message =>
    let word := (severityStyle severity).paint colours severity.word
    let code := match code with
      | some code => "[" ++ (Style.boldColoured .red).paint colours code ++ "]"
      | none => ""
    word ++ code ++ ": " ++ Style.bold.paint colours message ++ "\n"
  | .place file position =>
    "  " ++ (Style.coloured .blue).paint colours "-->" ++ " " ++ file ++ ":"
      ++ toString position.line ++ ":" ++ toString position.column ++ "\n"
  | .edge => margin ++ "\n"
  | .gap => spaces gutter ++ " " ++ (Style.coloured .blue).paint colours "..." ++ "\n"
  | .source number text =>
    let number := toString number
    let padded := spaces (gutter + 1 - number.length) ++ number
    (Style.boldColoured .blue).paint colours padded ++ " " ++ bar ++ " " ++ text ++ "\n"
  | .marks cells none => margin ++ " " ++ marksText colours cells ++ "\n"
  | .marks cells (some r) =>
    margin ++ " " ++ marksText colours cells ++ " "
      ++ (labelStyle r.style).paint colours r.message ++ "\n"
  | .remark r =>
    margin ++ " " ++ spaces r.indent ++ (labelStyle r.style).paint colours "|" ++ " "
      ++ (labelStyle r.style).paint colours r.message ++ "\n"
  | .footer word text =>
    "   " ++ (Style.coloured .cyan).paint colours "=" ++ " "
      ++ (Style.boldColoured .cyan).paint colours word ++ ": " ++ text ++ "\n"
where
  bar : String := (Style.coloured .blue).paint colours "|"
  margin : String := spaces (gutter + 1) ++ " " ++ bar

/-- The text of a diagnostic. -/
def render (colours : Bool) (file : Option String) (source : SourceText) (d : Diagnostic) : String :=
  let gutter := gutterWidth (markedLines source d.labels)
  String.join ((rows source (file.getD "<source>") d).map (Row.text colours gutter))

end SlotCode.Terminal
