/-!
# Faults

An operation can end in two ways other than with a result.  An *error* is a fact about the program
that is being compiled, with a cause to report.  A *fault* is a misuse of the library itself: a
number that no operation ever handed out, or a type graph that cannot be walked to an end.
-/

namespace SlotCode

inductive Fault where
  /-- The number names no node of the type graph. -/
  | unknownType (id : Nat)
  /-- The number names no variable of the table. -/
  | unknownVar (id : Nat)
  /-- The walk goes around a cycle of the type graph forever. -/
  | endless
deriving DecidableEq

/-- Why there is no result: a cause of type `ε` to report, or a fault. -/
inductive Failure (ε : Type) where
  | error (cause : ε)
  | fault (what : Fault)
deriving DecidableEq

def Failure.map {ε ε' : Type} (f : ε → ε') : Failure ε → Failure ε'
  | .error cause => .error (f cause)
  | .fault what => .fault what

/-- A query inside an operation with state.  It leaves the state as it is, whether or not it
succeeds. -/
def query {ε σ α : Type} (q : Except Fault α) : EStateM (Failure ε) σ α := fun s =>
  match q with
  | .ok a => .ok a s
  | .error fault => .error (.fault fault) s

/-- Ends an operation with a cause to report.  What it did to the state so far remains. -/
def fail {ε σ α : Type} (cause : ε) : EStateM (Failure ε) σ α := fun s =>
  .error (.error cause) s

end SlotCode
