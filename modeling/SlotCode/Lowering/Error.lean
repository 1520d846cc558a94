import SlotCode.Types.Error

/-!
# Lowering errors

Why a program could not be lowered, and where.  `Cause.message` holds the wording.
-/

namespace SlotCode

inductive Cause where
  | undefinedVariable (name : String)
  | undefinedFunction (name : String)
  | undefinedLoop (label : String)
  | noEnclosingLoop
  /-- A pattern binds the name twice; `previous` is the first time. -/
  | duplicateBinding (name : String) (previous : Span)
  | arityMismatch (function : String) (expected found : Nat)
  | typeMismatch (error : TypeError)
  | unboundPlaceholder (name : String)
  /-- The conditional `whole` has a value but no second branch. -/
  | missingElse (whole : Span)
  | assignVoid (target : Span)
  | voidValue (usage : String)
  | expectedBox (found : String)
  | expectedList (found : String)
  /-- `previous` is absent if the first definition is built in. -/
  | duplicateFunction (name : String) (previous : Option Span)
  | missingEntryPoint (name : String)
  | invalidEntryPoint (name found : String)
  | malformedComparison (reason : String)
  | unsupported (construct : String)
deriving DecidableEq

structure LoweringError where
  cause : Cause
  span : Span
deriving DecidableEq

namespace Cause

def message : Cause → String
  | .undefinedVariable name => s!"undefined variable: {name}"
  | .undefinedFunction name => s!"undefined function: {name}"
  | .undefinedLoop label => s!"no enclosing loop named `{label}`"
  | .noEnclosingLoop => "break outside of loop"
  | .duplicateBinding name _ => s!"`{name}` is bound twice in the same pattern"
  | .arityMismatch function expected found =>
    s!"`{function}` expects {expected} argument(s), found {found}"
  | .typeMismatch error => error.message
  | .unboundPlaceholder name =>
    s!"generic `{name}` in the return type is not bound by any argument"
  | .missingElse _ => "expected an `else` branch, as this branch produces a value"
  | .assignVoid _ => "cannot assign a value of type `void`"
  | .voidValue usage => s!"cannot {usage} a `void` value"
  | .expectedBox found => s!"expected a `Box`, found `{found}`"
  | .expectedList found => s!"expected a `List`, found `{found}`"
  | .duplicateFunction name _ => s!"function `{name}` is defined more than once"
  | .missingEntryPoint name => s!"missing entry point `{name}`"
  | .invalidEntryPoint name found =>
    s!"entry point `{name}` must have type `void -> void`, found `{found}`"
  | .malformedComparison reason => s!"malformed comparison: {reason}"
  | .unsupported construct => s!"unsupported construct: {construct}"

/-- Whether the fault lies with the tree that was handed over and not with its author. -/
def isInternal : Cause → Bool
  | .malformedComparison _ | .unsupported _ => true
  | _ => false

/-- A type error as a cause.  A placeholder is missing from a call, so it has a cause of its own. -/
def ofTypeError : TypeError → Cause
  | .unboundPlaceholder name _ => .unboundPlaceholder name
  | error => .typeMismatch error

end Cause

namespace LoweringError

def message (e : LoweringError) : String :=
  e.cause.message

def isInternal (e : LoweringError) : Bool :=
  e.cause.isInternal

/-- A type error is reported where the offending value is. -/
def ofTypeError (e : TypeError) : LoweringError :=
  { cause := .ofTypeError e, span := e.span }

end LoweringError

end SlotCode
