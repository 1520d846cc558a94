import SlotCode.Lowering.Event
import SlotCode.Types.Instantiate

/-!
# Lowering sessions

A session holds what lowering builds up: the type graph, the scope and the log.  A step of lowering
that fails keeps what it did to the session, so a step is a function to a result *and* a session in
both cases.
-/

namespace SlotCode

structure Session where
  types : TypeGraph
  scope : Scope
  log : Array Event

def Session.initial : Session :=
  { types := .initial, scope := .initial, log := #[] }

/-- A step of lowering. -/
abbrev Lower := EStateM (Failure LoweringError) Session

namespace Session

/-- Opens a context. -/
def enter (s : Session) : Session :=
  { s with scope := s.scope.push }

/-- Closes the current context and reports it. -/
def exit (s : Session) : Session :=
  { s with
    scope := s.scope.pop
    log := match s.scope.closing? with
      | some event => s.log.push event
      | none => s.log }

end Session

namespace Lower

/-! ## Access to the session -/

def failAt {α : Type} (cause : Cause) (span : Span) : Lower α :=
  fail ⟨cause, span⟩

def unsupported {α : Type} (construct : String) (span : Span) : Lower α :=
  failAt (.unsupported construct) span

def report (event : Event) : Lower Unit := fun s =>
  .ok () { s with log := s.log.push event }

def askTypes {α : Type} (f : TypeGraph → Except Fault α) : Lower α := fun s =>
  query (f s.types) s

def updateTypes {α : Type} (f : TypeGraph → α × TypeGraph) : Lower α := fun s =>
  let (a, types) := f s.types
  .ok a { s with types := types }

def askScope {α : Type} (f : Scope → Except Fault α) : Lower α := fun s =>
  query (f s.scope) s

/-- A search in the scope, which may find nothing. -/
def search {α : Type} (f : Scope → Except LoweringError α) : Lower α := fun s =>
  match f s.scope with
  | .ok a => .ok a s
  | .error e => .error (.error e) s

def updateScope {α : Type} (f : Scope → α × Scope) : Lower α := fun s =>
  let (a, scope) := f s.scope
  .ok a { s with scope := scope }

def modifyScope (f : Scope → Scope) : Lower Unit := fun s =>
  .ok () { s with scope := f s.scope }

/-- Runs a step in a context of its own, which is closed whatever the step does. -/
def inContext {α : Type} (step : Lower α) : Lower α := fun s =>
  match step s.enter with
  | .ok a s => .ok a s.exit
  | .error e s => .error e s.exit

/-! ## Types -/

/-- Requires a found type to match, without placeholders being bound. -/
def requireMatch (expected : Option TypeId) (found : TypeId) (expectedSpan foundSpan : Span) :
    Lower Unit := fun s =>
  match s.types.matchTypes expected found expectedSpan foundSpan none with
  | .ok () _ => .ok () s
  | .error failure _ => .error (failure.map .ofTypeError) s

def expectType (expected : TypeId) (value : Value) (span : Span) : Lower Unit :=
  requireMatch (some expected) value.type span value.span

/-- Matches an argument with its parameter, and binds the placeholders of the parameter. -/
def bindArgument (param : TypeId) (value : Value) (span : Span) (bindings : Bindings) :
    Lower Bindings := fun s =>
  match s.types.matchTypes (some param) value.type span value.span (some bindings) with
  | .ok () bound => .ok (bound.getD bindings) s
  | .error failure _ => .error (failure.map .ofTypeError) s

def instantiate (type : TypeId) (bindings : Bindings) (span : Span) : Lower TypeId := fun s =>
  match TypeGraph.instantiate type bindings span s.types with
  | .ok id types => .ok id { s with types := types }
  | .error failure types => .error (failure.map .ofTypeError) { s with types := types }

/-! ## Variables and values -/

/-- A new temporary of the current context that holds a value of the type. -/
def newTyped (type : TypeId) (span : Span) : Lower VarId := do
  let id ← updateScope (·.newTemp span none)
  modifyScope (·.setType id (some type))
  return id

/-- What a variable holds, as read at `span`. -/
def valueOf (id : VarId) (span : Span) : Lower Value := do
  let var ← askScope (·.var id)
  match var.type with
  | none => unsupported "read of an untyped variable" span
  | some type =>
    if type = TypeId.void then
      return .void span
    else
      match var.leaves with
      | none => return .scalar type span (.var id)
      | some leaves => return .tuple type span (leaves.map .var)

def scalarOf (value : Value) : Lower Operand :=
  match value.shape with
  | .scalar operand => return operand
  | _ => unsupported "non-scalar operand" value.span

end Lower

end SlotCode
