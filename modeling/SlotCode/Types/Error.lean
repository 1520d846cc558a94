import SlotCode.Source.Span

/-!
# Type errors

Why two types could not be brought together.  The types are kept as text, so an error outlives the
graph that it came from.
-/

namespace SlotCode

inductive TypeError where
  | mismatch (expected found : String) (expectedSpan foundSpan : Span)
  /-- Two tuples of different lengths. -/
  | tupleArity (expected found : String) (expectedSpan foundSpan : Span)
  /-- A placeholder that has no type to stand for. -/
  | unboundPlaceholder (name : String) (span : Span)
deriving DecidableEq

namespace TypeError

/-- Where the offending value is. -/
def span : TypeError → Span
  | .mismatch _ _ _ found | .tupleArity _ _ _ found => found
  | .unboundPlaceholder _ span => span

/-- Where the expectation comes from, if that is a place of its own. -/
def expectedSpan? : TypeError → Option Span
  | .mismatch _ _ expected _ | .tupleArity _ _ expected _ => some expected
  | .unboundPlaceholder _ _ => none

def message : TypeError → String
  | .mismatch expected found _ _ => s!"type mismatch: expected {expected}, found {found}"
  | .tupleArity expected found _ _ =>
    s!"type mismatch: expected {expected}, found {found} (mismatched tuple lengths)"
  | .unboundPlaceholder name _ => s!"generic `{name}` is not bound by any argument"

end TypeError

end SlotCode
