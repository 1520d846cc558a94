/-!
# Error codes

Every error code with its title and category, in increasing order.
-/

namespace SlotCode

inductive Category where
  | resolution
  | type
  /-- Trees that are broken or that cannot be lowered. -/
  | internal
deriving DecidableEq

def Category.word : Category → String
  | .resolution => "Resolution"
  | .type => "Type"
  | .internal => "Internal"

structure CodeEntry where
  code : String
  title : String
  category : Category
deriving DecidableEq

def codeRegistry : List CodeEntry := [
  ⟨"E0200", "undefined variable", .resolution⟩,
  ⟨"E0201", "undefined function", .resolution⟩,
  ⟨"E0202", "undefined loop label", .resolution⟩,
  ⟨"E0203", "break outside of loop", .resolution⟩,
  ⟨"E0204", "name bound twice in a pattern", .resolution⟩,
  ⟨"E0205", "duplicate function", .resolution⟩,
  ⟨"E0206", "missing entry point", .resolution⟩,
  ⟨"E0308", "mismatched types", .type⟩,
  ⟨"E0309", "mismatched tuple lengths", .type⟩,
  ⟨"E0310", "arity mismatch", .type⟩,
  ⟨"E0311", "unbound generic", .type⟩,
  ⟨"E0312", "missing else branch", .type⟩,
  ⟨"E0313", "assignment of void", .type⟩,
  ⟨"E0314", "use of a void value", .type⟩,
  ⟨"E0315", "expected a box", .type⟩,
  ⟨"E0316", "expected a list", .type⟩,
  ⟨"E0317", "invalid entry point", .type⟩,
  ⟨"E0400", "malformed comparison", .internal⟩,
  ⟨"E0401", "unsupported construct", .internal⟩]

def findCode? (code : String) : Option CodeEntry :=
  codeRegistry.find? fun e => e.code = code

end SlotCode
