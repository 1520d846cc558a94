import SlotCode.Lowering.Error
import SlotCode.Text.Quoted

/-!
# Errors in raw form

An error written out field by field, for developers: a name, and its fields in braces.
-/

namespace SlotCode

namespace Raw

/-- A name with named fields. -/
def record (name : String) (fields : List (String × String)) : String :=
  name ++ r" { " ++ ", ".intercalate (fields.map fun f => f.1 ++ ": " ++ f.2) ++ r" }"

/-- A name with one field that has no name. -/
def wrapped (name content : String) : String :=
  name ++ "(" ++ content ++ ")"

def span (s : Span) : String :=
  record "Span" [("start", toString s.start), ("end", toString s.stop)]

def optional : Option String → String
  | some content => wrapped "Some" content
  | none => "None"

/-- A name with one field that holds a text. -/
def textField (name field text : String) : String :=
  record name [(field, Text.quoted text)]

end Raw

open Raw

def TypeError.raw : TypeError → String
  | .mismatch expected found expectedSpan foundSpan =>
    record "Mismatch" [("expected", Text.quoted expected), ("found", Text.quoted found),
      ("expected_span", Raw.span expectedSpan), ("found_span", Raw.span foundSpan)]
  | .tupleArity expected found expectedSpan foundSpan =>
    record "TupleArity" [("expected", Text.quoted expected), ("found", Text.quoted found),
      ("expected_span", Raw.span expectedSpan), ("found_span", Raw.span foundSpan)]
  | .unboundPlaceholder name span =>
    record "UnboundGeneric" [("name", Text.quoted name), ("span", Raw.span span)]

def Cause.raw : Cause → String
  | .undefinedVariable name => textField "UndefinedVariable" "name" name
  | .undefinedFunction name => textField "UndefinedFunction" "name" name
  | .undefinedLoop label => textField "UndefinedLoop" "label" label
  | .noEnclosingLoop => "NoEnclosingLoop"
  | .duplicateBinding name previous =>
    record "DuplicateBinding" [("name", Text.quoted name), ("previous", Raw.span previous)]
  | .arityMismatch function expected found =>
    record "ArityMismatch" [("function", Text.quoted function), ("expected", toString expected),
      ("found", toString found)]
  | .typeMismatch error => wrapped "TypeMismatch" error.raw
  | .unboundPlaceholder name => textField "UnboundGeneric" "name" name
  | .missingElse whole => record "MissingElse" [("if_span", Raw.span whole)]
  | .assignVoid target => record "AssignVoid" [("target", Raw.span target)]
  | .voidValue usage => textField "VoidValue" "usage" usage
  | .expectedBox found => textField "ExpectedBox" "found" found
  | .expectedList found => textField "ExpectedList" "found" found
  | .duplicateFunction name previous =>
    record "DuplicateFunction" [("name", Text.quoted name),
      ("previous", optional (previous.map Raw.span))]
  | .missingEntryPoint name => textField "MissingEntryPoint" "name" name
  | .invalidEntryPoint name found =>
    record "InvalidEntryPoint" [("name", Text.quoted name), ("found", Text.quoted found)]
  | .malformedComparison reason => textField "MalformedComparison" "reason" reason
  | .unsupported construct => textField "UnsupportedConstruct" "construct" construct

def LoweringError.raw (e : LoweringError) : String :=
  record "FlattenError" [("kind", e.cause.raw), ("span", Raw.span e.span)]

end SlotCode
