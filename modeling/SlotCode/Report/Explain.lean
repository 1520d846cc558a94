import SlotCode.Report.Diagnostic
import SlotCode.Report.Raw

/-!
# Explaining errors

The diagnostic of each error: its code, what is said at which place, and the advice.
-/

namespace SlotCode

open Diagnostic

/-- Two types that differ: what was found, and why something else was expected. -/
def Diagnostic.ofTypes (code message expected found : String) (expectedSpan foundSpan : Span) :
    Diagnostic :=
  (ofCode code message)
    |>.withPrimary foundSpan s!"expected `{expected}`, found `{found}`"
    |>.withSecondary expectedSpan "expected because of this"

def Diagnostic.ofPlaceholder (name : String) (span : Span) : Diagnostic :=
  (ofCode "E0311" s!"cannot infer the box type `{name}`")
    |>.withPrimary span "in the return type of this call"
    |>.withHelp s!"take a `GenericBox<{name}>` parameter so every call fixes it"

def TypeError.diagnostic : TypeError → Diagnostic
  | .mismatch expected found expectedSpan foundSpan =>
    .ofTypes "E0308" "mismatched types" expected found expectedSpan foundSpan
  | .tupleArity expected found expectedSpan foundSpan =>
    .ofTypes "E0309" "mismatched tuple lengths" expected found expectedSpan foundSpan
  | .unboundPlaceholder name span => .ofPlaceholder name span

def LoweringError.diagnostic (e : LoweringError) : Diagnostic :=
  match e.cause with
  | .undefinedVariable name =>
    (ofCode "E0200" s!"undefined variable: `{name}`")
      |>.withPrimary e.span "not found in this scope"
      |>.withHelp s!"declare it first with `let {name} = ..`"
  | .undefinedFunction name =>
    (ofCode "E0201" s!"undefined function: `{name}`")
      |>.withPrimary e.span "no function with this name"
  | .undefinedLoop label =>
    (ofCode "E0202" s!"no enclosing loop named `{label}`")
      |>.withPrimary e.span "cannot break to this label"
  | .noEnclosingLoop =>
    (ofCode "E0203" "break outside of loop")
      |>.withPrimary e.span "cannot break here"
  | .duplicateBinding name previous =>
    (ofCode "E0204" s!"`{name}` is bound more than once in this pattern")
      |>.withPrimary e.span "bound again here"
      |>.withSecondary previous "first bound here"
  | .duplicateFunction name (some previous) =>
    (ofCode "E0205" s!"function `{name}` is defined more than once")
      |>.withPrimary e.span "redefined here"
      |>.withSecondary previous "previously defined here"
  | .duplicateFunction name none =>
    (ofCode "E0205" s!"function `{name}` is defined more than once")
      |>.withPrimary e.span "redefined here"
      |>.withNote s!"`{name}` is a built-in function"
  | .missingEntryPoint name =>
    (ofCode "E0206" s!"missing entry point `{name}`")
      |>.withHelp ("add `fn " ++ name ++ ": () -> void { .. }`")
  | .arityMismatch function expected found =>
    (ofCode "E0310" s!"`{function}` takes {expected} argument(s) but {found} were supplied")
      |>.withPrimary e.span s!"expected {expected} argument(s)"
  | .typeMismatch error => error.diagnostic
  | .unboundPlaceholder name => .ofPlaceholder name e.span
  | .missingElse whole =>
    (ofCode "E0312" "`if` without `else` produces a value")
      |>.withPrimary e.span "this branch has a value"
      |>.withSecondary whole "but this `if` has no `else`"
      |>.withHelp "add an `else` branch of the same type"
  | .assignVoid target =>
    (ofCode "E0313" "cannot assign a value of type `void`")
      |>.withPrimary e.span "this has no value"
      |>.withSecondary target "assigned here"
  | .voidValue usage =>
    (ofCode "E0314" s!"cannot {usage} a `void` value")
      |>.withPrimary e.span "this has no value"
  | .expectedBox found =>
    (ofCode "E0315" "expected a `Box`")
      |>.withPrimary e.span s!"found `{found}`"
  | .expectedList found =>
    (ofCode "E0316" "expected a `List`")
      |>.withPrimary e.span s!"found `{found}`"
  | .invalidEntryPoint name found =>
    (ofCode "E0317" s!"entry point `{name}` has the wrong type")
      |>.withPrimary e.span s!"expected `void -> void`, found `{found}`"
  | .malformedComparison reason =>
    (ofCode "E0400" s!"malformed comparison: {reason}")
      |>.withPrimary e.span "in this comparison"
      |>.withNote "this is a compiler bug: the parser produced a broken chain"
  | .unsupported construct =>
    (ofCode "E0401" s!"unsupported construct: {construct}")
      |>.withPrimary e.span "not supported yet"

/-- The diagnostic of an error, for developers with the error itself as a note. -/
def LoweringError.report (developer : Bool) (e : LoweringError) : Diagnostic :=
  if developer then
    e.diagnostic.withNote ("internal: " ++ e.raw)
  else
    e.diagnostic

end SlotCode
