import SlotCode.Code.Command

/-!
# Functions and programs

A function owns a table of variables.  A variable is real and takes one slot of storage, or it is
virtual and only groups the leaves that a tuple is spread over.
-/

namespace SlotCode

structure Var where
  /-- Temporaries have no name. -/
  name : Option String
  /-- Absent until a value or a declaration fixes it. -/
  type : Option TypeId
  span : Span
  /-- The leaves of a virtual variable; a real variable has none of its own. -/
  leaves : Option (List VarId)
  /-- Given when the context that owns the variable closes. -/
  slot : Option Nat
deriving DecidableEq

namespace Var

/-- A real variable without a type. -/
def new (name : Option String) (span : Span) : Var :=
  { name := name, type := none, span := span, leaves := none, slot := none }

def isReal (v : Var) : Bool :=
  v.leaves.isNone

/-- The leaves of the variable, which has the number `id`: itself if it is real. -/
def leavesOf (v : Var) (id : VarId) : List VarId :=
  v.leaves.getD [id]

/-- The type under which the variable is stored: a real variable whose type is known and not void
needs a slot, and no other does. -/
def stored? (v : Var) : Option TypeId :=
  if v.isReal then v.type.filter (· ≠ TypeId.void) else none

end Var

/-- All variables of a function, numbered by their place. -/
abbrev VarTable := Array Var

/-- A stored variable and its slot. -/
structure Local where
  slot : Nat
  var : VarId
  type : TypeId
deriving DecidableEq

structure Function where
  name : String
  result : TypeId
  vars : VarTable
  /-- Stored variables in the order of their slots. -/
  locals : List Local
  /-- Where the arguments arrive, tuples spread over their leaves. -/
  args : List VarId
  code : Code
  /-- The leaves returned; none for a void function. -/
  value : List Operand
  span : Span
deriving DecidableEq

structure Program where
  types : TypeGraph
  functions : List Function
deriving DecidableEq

/-- The first function of that name. -/
def Program.function? (p : Program) (name : String) : Option Function :=
  p.functions.find? fun f => f.name = name

end SlotCode
