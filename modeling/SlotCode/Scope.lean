import SlotCode.Code.Function
import SlotCode.Lowering.Error

/-!
# Scopes

A scope is a stack of open contexts over one table of variables.  A context sees the names and loops
declared in it and in the contexts around it.  Every variable is owned by one context, usually the
one it was made in; when that context closes, the variables it owns that need storage take the next
free slots, in the order in which they were made.

The outermost context is never closed.  Variables and slots start over with each function
(`Scope.drain`), while the numbers of contexts and loops go on.

The numbers of contexts, loops, variables and slots have no upper bound here.  Where they are kept in
32-bit words, they are the same as long as there are no more than `2^32` of each.
-/

namespace SlotCode

/-- The number of a context, never used twice. -/
abbrev ContextId := Nat

/-- A loop and the variable that receives its value. -/
structure LoopRef where
  loop : LoopId
  var : VarId
deriving DecidableEq

/-- An open context.  The lists have the newest entry first. -/
structure Context where
  id : ContextId
  names : List (String × VarId)
  loops : List (Option String × LoopRef)
  owned : List VarId
deriving DecidableEq

def Context.new (id : ContextId) : Context :=
  { id := id, names := [], loops := [], owned := [] }

/-- A variable and the context that owns it. -/
structure OwnedVar where
  var : Var
  owner : ContextId
deriving DecidableEq

/-- The type of a function, and where it was declared; a built-in one is declared nowhere. -/
structure Signature where
  type : TypeId
  declared : Option Span
deriving DecidableEq

structure Scope where
  current : Context
  /-- The contexts around the current one, innermost first. -/
  outer : List Context
  nextContext : ContextId
  nextLoop : LoopId
  vars : Array OwnedVar
  /-- Stored variables in the order of their slots. -/
  locals : Array Local
  /-- The newest entry of a name counts. -/
  functions : List (String × Signature)
deriving DecidableEq

/-- How the names of a pattern are bound: to new variables, with the names that the pattern has
bound so far and where, or to the variables they already stand for. -/
inductive BindMode where
  | declare (bound : List (String × Span))
  | resolve
deriving DecidableEq

namespace Scope

def initial : Scope :=
  { current := .new 0, outer := [], nextContext := 1, nextLoop := 0, vars := #[], locals := #[],
    functions := [] }

/-- The open contexts, innermost first. -/
def contexts (s : Scope) : List Context :=
  s.current :: s.outer

/-! ## Contexts -/

def push (s : Scope) : Scope :=
  { s with
    current := .new s.nextContext
    outer := s.current :: s.outer
    nextContext := s.nextContext + 1 }

/-- Gives a variable the next slot if it needs one. -/
def store (s : Scope) (id : VarId) : Scope :=
  match s.vars[id]?.bind fun entry => entry.var.stored? with
  | none => s
  | some type =>
    { s with
      vars := s.vars.modify id fun entry =>
        { entry with var := { entry.var with slot := some s.locals.size } }
      locals := s.locals.push { slot := s.locals.size, var := id, type := type } }

/-- Closes the current context and stores what it owns.  The outermost context stays. -/
def pop (s : Scope) : Scope :=
  match s.outer with
  | [] => s
  | context :: outer =>
    { s.current.owned.reverse.foldl store s with current := context, outer := outer }

/-! ## Variables -/

def entry (s : Scope) (id : VarId) : Except Fault OwnedVar :=
  match s.vars[id]? with
  | some entry => .ok entry
  | none => .error (.unknownVar id)

def var (s : Scope) (id : VarId) : Except Fault Var :=
  (s.entry id).map OwnedVar.var

def owner (s : Scope) (id : VarId) : Except Fault ContextId :=
  (s.entry id).map OwnedVar.owner

def table (s : Scope) : VarTable :=
  s.vars.map OwnedVar.var

def modifyVar (s : Scope) (id : VarId) (f : Var → Var) : Scope :=
  { s with vars := s.vars.modify id fun entry => { entry with var := f entry.var } }

def setType (s : Scope) (id : VarId) (type : Option TypeId) : Scope :=
  s.modifyVar id fun v => { v with type := type }

/-- Makes the variable virtual. -/
def setLeaves (s : Scope) (id : VarId) (leaves : List VarId) : Scope :=
  s.modifyVar id fun v => { v with leaves := some leaves }

/-- Notes in the innermost context with the number `owner` that it owns a variable.  If there is
none, nobody will ever store the variable. -/
def addOwned (owner : ContextId) (id : VarId) : List Context → List Context
  | [] => []
  | c :: cs =>
    if c.id = owner then { c with owned := id :: c.owned } :: cs else c :: addOwned owner id cs

/-- A new variable owned by the context with the number `owner`. -/
def newVar (s : Scope) (name : Option String) (span : Span) (owner : ContextId) : VarId × Scope :=
  let id := s.vars.size
  let vars := s.vars.push { var := .new name span, owner := owner }
  if s.current.id = owner then
    (id, { s with vars := vars, current := { s.current with owned := id :: s.current.owned } })
  else
    (id, { s with vars := vars, outer := addOwned owner id s.outer })

/-- A new temporary of the current context, or of the one given. -/
def newTemp (s : Scope) (span : Span) (owner : Option ContextId) : VarId × Scope :=
  s.newVar none span (owner.getD s.current.id)

/-- The variable that the name stands for: the newest one in the innermost context that has any. -/
def lookup (s : Scope) (name : String) (span : Span) : Except LoweringError VarId :=
  match s.contexts.findSome? fun c => c.names.lookup name with
  | some id => .ok id
  | none => .error ⟨.undefinedVariable name, span⟩

/-- Binds a name of a pattern.  A pattern declares no name twice. -/
def bind (s : Scope) (name : String) (span : Span) :
    BindMode → Except LoweringError (VarId × BindMode × Scope)
  | .resolve => (s.lookup name span).map fun id => (id, .resolve, s)
  | .declare bound =>
    match bound.lookup name with
    | some previous => .error ⟨.duplicateBinding name previous, span⟩
    | none =>
      let (id, s) := s.newVar (some name) span s.current.id
      let current := { s.current with names := (name, id) :: s.current.names }
      .ok (id, .declare ((name, span) :: bound), { s with current := current })

/-- Forgets all variables, names and open loops.  Contexts stay open. -/
def drain (s : Scope) : Scope :=
  { s with
    current := .new s.current.id
    outer := s.outer.map fun c => .new c.id
    vars := #[]
    locals := #[] }

/-! ## Loops -/

/-- A new loop whose value goes to a variable of the current context.  No `leave` finds it. -/
def newHiddenLoop (s : Scope) (span : Span) : LoopRef × Scope :=
  let (id, s) := s.newVar none span s.current.id
  (⟨s.nextLoop, id⟩, { s with nextLoop := s.nextLoop + 1 })

/-- A new loop in the current context. -/
def newLoop (s : Scope) (label : Option String) (span : Span) : LoopRef × Scope :=
  let (ref, s) := s.newHiddenLoop span
  (ref, { s with current := { s.current with loops := (label, ref) :: s.current.loops } })

/-- The loops that can be left, innermost first. -/
def openLoops (s : Scope) : List (Option String × LoopRef) :=
  s.contexts.flatMap Context.loops

def findLoop (s : Scope) (label : String) (span : Span) : Except LoweringError LoopRef :=
  match s.openLoops.find? fun l => l.1 = some label with
  | some (_, ref) => .ok ref
  | none => .error ⟨.undefinedLoop label, span⟩

def innermostLoop (s : Scope) (span : Span) : Except LoweringError LoopRef :=
  match s.openLoops.head? with
  | some (_, ref) => .ok ref
  | none => .error ⟨.noEnclosingLoop, span⟩

/-! ## Functions -/

/-- Declares a function.  No function is declared twice. -/
def register (s : Scope) (name : String) (type : TypeId) (span : Span) :
    Except LoweringError Scope :=
  match s.functions.lookup name with
  | some previous => .error ⟨.duplicateFunction name previous.declared, span⟩
  | none => .ok { s with functions := (name, ⟨type, some span⟩) :: s.functions }

/-- Provides a built-in function, in place of any function of that name. -/
def registerNative (s : Scope) (name : String) (type : TypeId) : Scope :=
  { s with functions := (name, ⟨type, none⟩) :: s.functions }

def signature (s : Scope) (name : String) (span : Span) : Except LoweringError TypeId :=
  match s.functions.lookup name with
  | some signature => .ok signature.type
  | none => .error ⟨.undefinedFunction name, span⟩

end Scope

end SlotCode
