import SlotCode.Lowering.Session

/-!
# Patterns

The target of an assignment is bound to variables, shaped after the type of the value it receives,
and then stored into, leaf by leaf.  A variable that receives a tuple becomes virtual.  Its leaves
are made once, so everything that is ever stored into it goes to the same variables.
-/

namespace SlotCode

/-- An assignment target whose names are bound. -/
inductive Pattern where
  | var (id : VarId) (span : Span)
  | tuple (items : List Pattern) (span : Span)

def Pattern.span : Pattern → Span
  | .var _ span | .tuple _ span => span

namespace Lower

/-! ## Binding -/

/-- Binds one name. -/
def bindName (name : String) (span : Span) (mode : BindMode) : Lower (VarId × BindMode) := fun s =>
  match s.scope.bind name span mode with
  | .ok (id, mode, scope) => .ok (id, mode) { s with scope := scope }
  | .error e => .error (.error e) s

mutual

/-- Binds the names of a target from left to right. -/
def bindPattern (mode : BindMode) : Expr → Lower (Pattern × BindMode)
  | .var span name => do
    let (id, mode) ← bindName name span mode
    return (.var id span, mode)
  | .tuple span items => do
    let (items, mode) ← bindPatterns mode items
    return (.tuple items span, mode)
  | target => unsupported "assignment target" target.span

def bindPatterns (mode : BindMode) : List Expr → Lower (List Pattern × BindMode)
  | [] => return ([], mode)
  | target :: targets => do
    let (item, mode) ← bindPattern mode target
    let (items, mode) ← bindPatterns mode targets
    return (item :: items, mode)

end

/-! ## Shaping -/

/-- New temporaries, one for each type, owned by the given context. -/
def newLeaves (span : Span) (owner : ContextId) : List TypeId → Lower (List VarId)
  | [] => return []
  | type :: types => do
    let id ← updateScope (·.newTemp span (some owner))
    modifyScope (·.setType id (some type))
    let ids ← newLeaves span owner types
    return id :: ids

/-- Shapes a variable: its type is fixed by the first value, and a tuple gives it leaves in its own
context. -/
def expandVar (id : VarId) (type : TypeId) (valueSpan : Span) : Lower (List VarId) := do
  let var ← askScope (·.var id)
  requireMatch var.type type var.span valueSpan
  if var.type.isNone then
    modifyScope (·.setType id (some type))
  match (← askTypes (·.kind type)).items?, var.leaves with
  | none, _ => return [id]
  | some _, some leaves => return leaves
  | some _, none =>
    let owner ← askScope (·.owner id)
    let types ← askTypes (·.leaves type)
    let leaves ← newLeaves var.span owner types
    modifyScope (·.setLeaves id leaves)
    return leaves

/-- The text of a tuple pattern with that many items, where a type is expected. -/
def holes (count : Nat) : String :=
  "(" ++ ", ".intercalate (List.replicate count "_") ++ ")"

mutual

/-- Shapes a pattern after the type of a value, and returns the variables that receive the leaves
of the value. -/
def expand (valueSpan : Span) : Pattern → TypeId → Lower (List VarId)
  | .var id _, type => expandVar id type valueSpan
  | .tuple items span, type => do
    match (← askTypes (·.kind type)).items? with
    | some types =>
      if types.length = items.length then
        expandEach valueSpan items types
      else
        let found ← askTypes (·.text type)
        fail (.ofTypeError (.tupleArity (holes items.length) found span valueSpan))
    | none =>
      let found ← askTypes (·.text type)
      fail (.ofTypeError (.mismatch (holes items.length) found span valueSpan))

def expandEach (valueSpan : Span) : List Pattern → List TypeId → Lower (List VarId)
  | item :: items, type :: types => do
    let head ← expand valueSpan item type
    let rest ← expandEach valueSpan items types
    return head ++ rest
  | _, _ => return []

end

/-! ## Storing -/

/-- One assignment for each leaf. -/
def assignments (span : Span) (slots : List VarId) (operands : List Operand) : Code :=
  List.zipWith (fun slot operand => .assign span slot operand) slots operands

/-- Stores a value into a pattern. -/
def storeInto (pattern : Pattern) (value : Value) (span : Span) : Lower Code := do
  if value.isVoid then
    failAt (.assignVoid pattern.span) value.span
  else
    let slots ← expand value.span pattern value.type
    return assignments span slots value.leaves

end Lower

end SlotCode
